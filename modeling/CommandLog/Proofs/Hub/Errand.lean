import CommandLog.Hub.Ticker
import CommandLog.Proofs.Session.Move

/-! # The moves of errands and tickers

An errand acts in one step as well: a device write that completes no record when it has what is
pending, every other operation when it has the lock of the store. A ticker takes the steps of the
errand that brings its record into the log.
-/

namespace CommandLog

open FairLock

namespace Errand

variable {e e' : Errand} {id : TaskId} {r r' : Resources} {d : Option Deed} {record : Record}

def deed? (e : Errand) (id : TaskId) (r : Resources) : Option Deed :=
  match e.stage with
  | .gathering =>
    match e.operation.device? r with
    | some n =>
      if (r.device n).lock.holder = some id ∧ e.operation.needsStore = false then
        some (.errand e.operation)
      else none
    | none => none
  | .queued _ => if r.lock.holder = some id then some (.errand e.operation) else none
  | _ => none

def stake (e : Errand) : Stake :=
  match e.stage with
  | .queued _ => .asked
  | .copying _ _ | .holding => .inside
  | _ => .out

/-- A step of an errand, from the stage in which it is taken, with the deed done in it. -/
inductive Move (e : Errand) (id : TaskId) (r : Resources) :
    Option Deed → Errand → Resources → Prop where
  | gather {n : Nat} : e.stage = .fresh → e.operation.device? r = some n →
      Move e id r none { e with stage := .gathering }
        (r.modifyDevice n fun x => { x with lock := x.lock.request id })
  /-- Asks for the store, with what is pending on a device in hand if it is needed. -/
  | queue : e.stage = .fresh ∨ e.stage = .gathering →
      (∀ n ∈ e.operation.device? r,
        e.stage = .gathering ∧ (r.device n).lock.holder = some id) →
      (e.stage = .gathering → e.operation.needsStore = true) →
      Move e id r none { e with stage := .queued (e.operation.deadline? r) } (r.request id)
  /-- A write completes no record and leaves the store alone. -/
  | collect : e.stage = .gathering → e.operation.needsStore = false →
      (∀ n ∈ e.operation.device? r, (r.device n).lock.holder = some id) →
      Move e id r (some (.errand e.operation)) { e with stage := .finished (e.operation.act r).1 }
        (e.leaveDevice id (e.operation.act r).2)
  | hold {deadline : Option Nat} : e.stage = .queued deadline → r.lock.holder = some id →
      e.operation = .hold →
      Move e id r (some (.errand e.operation)) { e with stage := .holding } r
  | tick {deadline : Option Nat} {record : Record} : e.stage = .queued deadline →
      r.lock.holder = some id → e.operation = .tick record →
      Move e id r (some (.errand e.operation))
        { e with stage := .copying record (.evicted (r.append record).2) } (r.append record).1
  | act {deadline : Option Nat} : e.stage = .queued deadline → r.lock.holder = some id →
      (∀ record, e.operation ≠ .tick record) →
      Move e id r (some (.errand e.operation)) { e with stage := .finished (e.operation.act r).1 }
        (e.leaveDevice id (e.operation.act r).2.release)
  | expired {deadline : Option Nat} : e.stage = .queued deadline → r.lock.holder ≠ some id →
      (∃ last ∈ deadline, last ≤ r.now) →
      Move e id r none { e with stage := .finished (.error r.lockTimeout) }
        (e.leaveDevice id (r.withdraw id))
  | copy {record : Record} {reply : Reply} : e.stage = .copying record reply →
      Move e id r none { e with stage := .finished (.ok reply) } (r.transcribe record).release

theorem lock_leaveDevice (e : Errand) (id : TaskId) (r : Resources) :
    (e.leaveDevice id r).lock = r.lock := by
  unfold leaveDevice
  split <;> rfl

theorem ledger_leaveDevice (e : Errand) (id : TaskId) (r : Resources) :
    (e.leaveDevice id r).ledger = r.ledger := by
  unfold leaveDevice
  split
  · exact r.ledger_modifyDevice _ fun _ => rfl
  · rfl

theorem enter_move {deadline : Option Nat} (hs : e.stage = .queued deadline)
    (hh : r.lock.holder = some id) :
    e.Move id r (some (.errand e.operation)) (e.enter id r).1 (e.enter id r).2 := by
  obtain ⟨op, stage⟩ := e
  cases op with
  | hold => exact .hold hs hh rfl
  | tick record => exact .tick hs hh rfl
  | _ => exact .act hs hh nofun

theorem step?_move (h : e.step? id r = some (e', r')) : e.Move id r (e.deed? id r) e' r' := by
  unfold step? at h
  split at h
  case h_1 hs =>
    rw [show e.deed? id r = none by simp [deed?, hs]]
    split at h <;> obtain ⟨rfl, rfl⟩ := Prod.mk.inj (Option.some.inj h)
    case h_1 hd => exact .gather hs hd
    case h_2 hd => exact .queue (.inl hs) (by simp [hd]) (by simp [hs])
  case h_2 hs =>
    split at h
    case h_1 n hd =>
      split at h
      case isTrue hh =>
        split at h <;> obtain ⟨rfl, rfl⟩ := Prod.mk.inj (Option.some.inj h)
        case isTrue hn =>
          rw [show e.deed? id r = none by simp [deed?, hs, hd, hn]]
          exact .queue (.inr hs) (by simp [hd, hs, hh]) fun _ => hn
        case isFalse hn =>
          have hn : e.operation.needsStore = false := by simpa using hn
          rw [show e.deed? id r = some (.errand e.operation) by simp [deed?, hs, hd, hh, hn]]
          exact .collect hs hn (by simp [hd, hh])
      case isFalse => cases h
    case h_2 => cases h
  case h_3 deadline hs =>
    split at h
    case isTrue hh =>
      rw [show e.deed? id r = some (.errand e.operation) by simp [deed?, hs, hh]]
      obtain ⟨rfl, rfl⟩ := Prod.mk.inj (Option.some.inj h)
      exact enter_move hs hh
    case isFalse hh =>
      split at h
      case isTrue hd =>
        obtain ⟨rfl, rfl⟩ := Prod.mk.inj (Option.some.inj h)
        rw [show e.deed? id r = none by simp [deed?, hs, hh]]
        exact .expired hs hh (by simpa [Option.any_eq_true] using hd)
      case isFalse => cases h
  case h_4 record reply hs =>
    obtain ⟨rfl, rfl⟩ := Prod.mk.inj (Option.some.inj h)
    rw [show e.deed? id r = none by simp [deed?, hs]]
    exact .copy hs
  all_goals cases h

theorem deed?_of_step?_eq_none (h : e.step? id r = none) : e.deed? id r = none := by
  unfold deed?
  split
  case h_1 hs =>
    split
    case h_1 n hn =>
      split
      case isTrue hh => simp [step?, hs, hn, hh.1, hh.2] at h
      case isFalse => rfl
    case h_2 => rfl
  case h_2 hs =>
    split
    · simp [step?, *] at h
    · rfl
  case h_3 => rfl

theorem Move.turn (m : e.Move id r d e' r') : Turn id r.lock e.stake r'.lock e'.stake := by
  cases m with
  | gather hs => simpa [stake, hs] using .keep
  | queue hs => rcases hs with hs | hs <;> simpa [stake, hs] using .ask
  | collect hs => simpa [stake, hs, lock_leaveDevice] using .keep
  | hold hs hh => simpa [stake, hs] using .enter hh
  | tick hs hh => simpa [stake, hs] using .enter hh
  | act hs hh =>
    simpa [stake, hs, lock_leaveDevice, Resources.release] using .release (.inr ⟨rfl, hh⟩)
  | expired hs => simpa [stake, hs, lock_leaveDevice] using .withdraw
  | copy hs => simpa [stake, hs, Resources.release] using .release (.inl rfl)

theorem Move.locks {d : Deed} (m : e.Move id r (some d) e' r') (hd : d.locks = true) :
    r.lock.holder = some id ∧ e.stake = .asked ∧ e'.stake ≠ .asked := by
  cases m with
  | collect _ hn => cases hn.symm.trans hd
  | hold hs hh | tick hs hh | act hs hh =>
    exact ⟨hh, by simp [stake, hs], by simp [stake]⟩

theorem Move.deed (m : e.Move id r d e' r') :
    e'.operation = e.operation ∧ ∀ x ∈ d, x = .errand e.operation := by
  cases m <;> simp

theorem Move.ledger (m : e.Move id r d e' r') :
    r'.ledger = (d.elim r fun d => (d.act r).2).ledger := by
  cases m with
  | gather => exact r.ledger_modifyDevice _ fun _ => rfl
  | queue => rfl
  | collect => exact ledger_leaveDevice ..
  | hold _ _ ho => simp [Deed.act, ho, Operation.act]
  | tick _ _ ho => simp [Deed.act, ho, Operation.act]
  | act => exact ledger_leaveDevice ..
  | expired => exact ledger_leaveDevice ..
  | copy => exact r.ledger_transcribe _

theorem operation_kill (e : Errand) (id : TaskId) (r : Resources) :
    (e.kill id r).1.operation = e.operation := by
  unfold kill
  split <;> rfl

theorem stake_kill (e : Errand) (id : TaskId) (r : Resources) : (e.kill id r).1.stake = .out := by
  unfold kill
  split
  case h_1 hs | h_2 hs => simp [stake, hs]
  case h_3 => rfl

theorem kill_turn (e : Errand) (id : TaskId) (r : Resources) :
    Turn id r.lock e.stake (e.kill id r).2.lock .out := by
  unfold kill
  split
  case h_1 hs | h_2 hs => simpa [stake, hs] using .keep
  case h_3 => simpa [lock_leaveDevice] using .withdraw

theorem ledger_kill (e : Errand) (id : TaskId) (r : Resources) :
    (e.kill id r).2.ledger = r.ledger := by
  unfold kill
  split
  · rfl
  · rfl
  · exact ledger_leaveDevice ..

theorem operation_letGo (e : Errand) (r : Resources) :
    (e.letGo r).1.operation = e.operation := by
  unfold letGo
  split <;> rfl

theorem letGo_turn (e : Errand) (id : TaskId) (r : Resources) :
    Turn id r.lock e.stake (e.letGo r).2.lock (e.letGo r).1.stake := by
  unfold letGo
  split
  case h_1 hs => simpa [stake, hs] using .release (.inl rfl)
  case h_2 => exact .keep

theorem ledger_letGo (e : Errand) (r : Resources) : (e.letGo r).2.ledger = r.ledger := by
  unfold letGo
  split <;> rfl

def Brings (e : Errand) (record : Record) : Prop :=
  e.operation = .append record ∨ e.operation = .tick record

theorem Brings.device? (h : e.Brings record) (r : Resources) : e.operation.device? r = none := by
  rcases h with ho | ho <;> rw [ho] <;> rfl

theorem Brings.deadline? (h : e.Brings record) (r : Resources) :
    e.operation.deadline? r = some r.deadline := by
  rcases h with ho | ho <;> rw [ho] <;> rfl

end Errand

namespace Ticker

variable {t t' : Ticker} {id : TaskId} {r r' : Resources} {d : Option Deed}

def deed? (t : Ticker) (id : TaskId) (r : Resources) : Option Deed :=
  match t.stage with
  | .ticking e => e.deed? id r
  | _ => none

def stake (t : Ticker) : Stake :=
  match t.stage with
  | .ticking e => e.stake
  | _ => .out

inductive Move (t : Ticker) (id : TaskId) (r : Resources) :
    Option Deed → Ticker → Resources → Prop where
  | stop : t.stage = .waiting → t.stopping = true →
      Move t id r none { t with stage := .stopped } r
  | fire {due : Span} {time : ZonedTime} : t.stage = .waiting →
      t.due.nanoseconds ≤ (Span.ofMilliseconds r.now).nanoseconds →
      due = nextDue t.period t.due (.ofMilliseconds r.now) → time = r.dial r.now →
      Move t id r none
        { t with
          due := due
          stage := .ticking { operation := t.operation (Timestamp.record time) } } r
  | done {e : Errand} {result : Except LogError Reply} : t.stage = .ticking e →
      e.stage = .finished result → Move t id r none { t with stage := .waiting } r
  | tick {e e' : Errand} {d : Option Deed} {r' : Resources} : t.stage = .ticking e →
      e.Move id r d e' r' → Move t id r d { t with stage := .ticking e' } r'

theorem waiting_of_fire? (h : t.fire? r = some t') : t.stage = .waiting := by
  unfold fire? at h
  split at h
  case h_1 hs => exact hs
  case h_2 => cases h

theorem fire?_move (id : TaskId) (h : t.fire? r = some t') : t.Move id r none t' r := by
  have hs := waiting_of_fire? h
  simp only [fire?, hs] at h
  split at h
  case isTrue hd =>
    obtain rfl := Option.some.inj h
    exact .fire hs hd rfl rfl
  case isFalse => cases h

theorem step?_move (h : t.step? id r = some (t', r')) : t.Move id r (t.deed? id r) t' r' := by
  unfold step? at h
  split at h
  case h_1 hs =>
    rw [show t.deed? id r = none by simp [deed?, hs]]
    split at h
    case isTrue hst =>
      obtain ⟨rfl, rfl⟩ := Prod.mk.inj (Option.some.inj h)
      exact .stop hs hst
    case isFalse =>
      obtain ⟨t'', hf, he⟩ := Option.map_eq_some_iff.mp h
      obtain ⟨rfl, rfl⟩ := Prod.mk.inj he
      exact fire?_move id hf
  case h_2 e hs =>
    rw [show t.deed? id r = e.deed? id r by simp [deed?, hs]]
    split at h
    case h_1 result he =>
      obtain ⟨rfl, rfl⟩ := Prod.mk.inj (Option.some.inj h)
      rw [show e.deed? id r = none by simp [Errand.deed?, he]]
      exact .done hs he
    case h_2 =>
      obtain ⟨⟨e', r''⟩, hm, he⟩ := Option.map_eq_some_iff.mp h
      obtain ⟨rfl, rfl⟩ := Prod.mk.inj he
      exact .tick hs (Errand.step?_move hm)
  all_goals cases h

theorem Move.turn (m : t.Move id r d t' r') : Turn id r.lock t.stake r'.lock t'.stake := by
  cases m with
  | stop hs => simpa [stake, hs] using .keep
  | fire hs => simpa [stake, hs, Errand.stake] using .keep
  | done hs he => simpa [stake, hs, Errand.stake, he] using .keep
  | tick hs hm => simpa [stake, hs] using hm.turn

theorem Move.ledger (m : t.Move id r d t' r') :
    r'.ledger = (d.elim r fun d => (d.act r).2).ledger := by
  cases m with
  | tick _ hm => exact hm.ledger
  | _ => rfl

theorem brings_operation (t : Ticker) (record : Record) :
    Errand.Brings { operation := t.operation record } record := by
  unfold operation
  split
  · exact .inr rfl
  · exact .inl rfl

theorem stake_kill (t : Ticker) (id : TaskId) (r : Resources) : (t.kill id r).1.stake = .out := by
  unfold kill
  split
  case h_3 hs | h_4 hs => simp [stake, hs]
  all_goals rfl

theorem kill_turn (t : Ticker) (id : TaskId) (r : Resources) :
    Turn id r.lock t.stake (t.kill id r).2.lock .out := by
  unfold kill
  split
  case h_2 e hs => simpa [stake, hs] using e.kill_turn id r
  case h_1 hs | h_3 hs | h_4 hs => simpa [stake, hs] using .keep

theorem ledger_kill (t : Ticker) (id : TaskId) (r : Resources) :
    (t.kill id r).2.ledger = r.ledger := by
  unfold kill
  split
  case h_2 e _ => exact e.ledger_kill id r
  all_goals rfl

end Ticker

end CommandLog
