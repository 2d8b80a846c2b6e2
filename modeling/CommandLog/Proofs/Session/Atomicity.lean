import CommandLog.Proofs.Session.Script
import CommandLog.Proofs.Session.Shutdown

/-! # All or nothing

Wherever a session fails or is ended, it has stored its first line or nothing, and it has stored the
line exactly if it has obtained the lock with it. A session that fails before its reply is due sends
nothing; one that fails while it replies has sent a first part of the reply, and what it stored
stays. Its stream is shut once, and what comes of that changes nothing.
-/

namespace CommandLog

def Deed.stored : Deed → List Record
  | .exchange (some (.append record)) => [record]
  | _ => []

theorem Deed.records_exchange (request : Option Command) (r : Resources) :
    (Deed.exchange request).records r = (Deed.exchange request).stored := by
  rcases request with _ | _ | _ <;> rfl

def Wire.Writing.failure? : Writing → Option IoError
  | taken 0 => some (.kind .writeZero)
  | failure cause => some cause
  | _ => none

namespace Session

variable {s s' : Session} {id : TaskId} {r r' : Resources} {d : Option Deed} {store : Store}
  {mine : Account} {result : Except ServiceError Outcome}

inductive Breaks (s : Session) (cause : IoError) : Prop where
  | write {outcome : Outcome} {rest : Bytes} : s.stage = .replying outcome rest → rest ≠ [] →
      (s.wire.write rest).1.failure? = some cause → Breaks s cause
  | flush {outcome : Outcome} : s.stage = .flushing outcome →
      s.wire.flushFailure = some cause → Breaks s cause

/-- The result of a session is settled, unless it is ended before its stream is closed. -/
def Settles (s : Session) (result : Except ServiceError Outcome) : Prop :=
  s.stage = .closing result ∨ s.stage = .closed result ∨ s.stage = .killed

theorem Breaks.step {cause : IoError} (h : s.Breaks cause) (id : TaskId) (r : Resources) :
    ∃ s', s.step? id r = some (s', r.release) ∧ s'.Settles (.error (.io none cause)) := by
  cases h with
  | @write outcome rest hs hne hw =>
    refine ⟨{ s with
      wire := (s.wire.write rest).2, stage := .closing (.error (.io none cause)) }, ?_, .inl rfl⟩
    simp only [step?, hs, send?, if_neg hne]
    generalize s.wire.write rest = x at hw ⊢
    obtain ⟨writing, w⟩ := x
    cases writing with
    | taken n =>
      cases n with
      | zero =>
        obtain rfl := Option.some.inj hw
        rfl
      | succ n => cases hw
    | failure =>
      obtain rfl := Option.some.inj hw
      rfl
    | wait => cases hw
  | flush hs hf =>
    refine ⟨{ s with
      wire := s.wire.flush.2, stage := .closing (.error (.io none cause)) }, ?_, .inl rfl⟩
    simp only [step?, hs, Wire.flush, hf]

theorem Move.settles (m : s.Move id r d s' r') (h : s.Settles result) : s'.Settles result := by
  cases m with
  | close hs =>
    rcases h with h | h | h
    · exact .inr (.inl (congrArg Stage.closed (Stage.closing.inj (hs.symm.trans h))))
    · exact nomatch hs.symm.trans h
    · exact nomatch hs.symm.trans h
  | receive hs | frame hs | ended hs | broken hs | expired hs | store hs | seek hs | astray hs
  | replay hs | copy hs | send hs | cut hs | sent hs | flush hs | unflushed hs =>
    simp [Settles, hs] at h

theorem settles_kill (h : s.Settles result) (id : TaskId) (r : Resources) :
    (s.kill id r).1.Settles result := by
  unfold kill
  split
  case h_1 | h_2 => exact h
  case h_3 => exact .inr (.inr rfl)

theorem Move.not_killed (m : s.Move id r d s' r') (h : s.stage ≠ .killed) :
    s'.stage ≠ .killed := by
  cases m with
  | receive => exact h
  | _ => exact nofun

theorem Reports.once (h : s.Reports store mine) :
    mine = [] ∨ ∃ request result, mine = [(.exchange request, .exchange result)] := by
  unfold Reports at h
  split at h
  case h_1 | h_2 => exact .inl h.1
  case h_3 => exact .inr ⟨_, _, h.1⟩
  case h_4 | h_5 =>
    obtain ⟨request, h⟩ := h
    exact .inr ⟨request, _, h⟩
  case h_6 | h_7 =>
    cases h with
    | unread | late => exact .inl rfl
    | astray | cut | done => exact .inr ⟨_, _, rfl⟩
  case h_8 =>
    rcases h with h | ⟨request, result, h, -⟩
    · exact .inl h.1
    · exact .inr ⟨request, result, h⟩

theorem Reports.told (h : s.Reports store mine) (hr : s.result? = some result) :
    Told s.wire.sent mine result := by
  unfold result? at hr
  split at hr
  case h_1 hs =>
    obtain rfl := Option.some.inj hr
    simpa only [Reports, hs] using h
  case h_2 => cases hr

theorem Told.rejected {sent : Bytes} {cause : LogError}
    (h : Told sent mine (.error (.log cause))) :
    mine.flatMap (fun x => x.1.stored) = [] ∧ sent = [] ∧
      (cause.isFraming = true ∨ (∃ span, cause = .lockUnavailable (.timedOut span)) ∨
        ∃ index offset, cause = .outOfRange index offset) := by
  cases h with
  | unread hsent hf => exact ⟨rfl, hsent, .inl hf⟩
  | late hsent => exact ⟨rfl, hsent, .inr (.inl ⟨_, rfl⟩)⟩
  | astray hsent => exact ⟨rfl, hsent, .inr (.inr ⟨_, _, rfl⟩)⟩

theorem Told.cut_inv {sent : Bytes} {path : Option String} {cause : IoError}
    (h : Told sent mine (.error (.io path cause))) :
    path = none ∧ ∃ request outcome body,
      mine = [(.exchange request, .exchange (.ok (outcome, body)))] := by
  cases h with
  | cut => exact ⟨rfl, _, _, _, rfl⟩

theorem Told.due {sent body : Bytes} {request : Option Command} {outcome : Outcome}
    (h : Told sent mine result)
    (hm : (.exchange request, .exchange (.ok (outcome, body))) ∈ mine) :
    result = .ok outcome ∧ sent = body ∨ ∃ cause, result = .error (.io none cause) := by
  cases h with
  | unread | late => cases hm
  | astray => simp at hm
  | cut => exact .inr ⟨_, rfl⟩
  | done =>
    obtain ⟨-, rfl, rfl⟩ := by simpa using hm
    exact .inl ⟨rfl, rfl⟩

/-- Once a reply is due, the peer gets a first part of it and nothing else. -/
theorem Reports.due {request : Option Command} {outcome : Outcome} {body : Bytes}
    (h : s.Reports store mine)
    (hm : (.exchange request, .exchange (.ok (outcome, body))) ∈ mine) : s.wire.sent <+: body := by
  unfold Reports at h
  split at h
  case h_1 | h_2 =>
    rw [h.1] at hm
    cases hm
  case h_3 =>
    rw [h.2]
    exact List.nil_prefix
  case h_4 =>
    obtain ⟨request', rfl⟩ := h
    obtain ⟨-, -, rfl⟩ := by simpa using hm
    exact List.prefix_append _ _
  case h_5 =>
    obtain ⟨request', rfl⟩ := h
    obtain ⟨-, -, rfl⟩ := by simpa using hm
    exact List.prefix_refl _
  case h_6 | h_7 =>
    cases h with
    | unread | late => cases hm
    | astray => simp at hm
    | cut hp =>
      obtain ⟨-, -, rfl⟩ := by simpa using hm
      exact hp
    | done =>
      obtain ⟨-, -, rfl⟩ := by simpa using hm
      exact List.prefix_refl _
  case h_8 =>
    rcases h with ⟨rfl, -⟩ | ⟨request', result, rfl, hp⟩
    · cases hm
    · obtain ⟨-, rfl⟩ := by simpa using hm
      exact hp

end Session

namespace Hub

variable {h h' : Hub} {ev : Event} {evs : List Event} {id : TaskId} {entry : Option Entry}

def stored (id : TaskId) (past : List Entry) : List Record :=
  (own id past).flatMap fun x => x.1.stored

def Event.Concerns (id : TaskId) : Event → Prop
  | .step i | .fire i | .kill i | .feed i _ _ | .allow i _ | .letGo i | .stop i => i = id
  | .spawn _ | .elapse _ => False

/-- In a run a session obtains the lock that it has asked for, with what it has read. -/
def Obtains (h : Hub) (evs : List Event) (id : TaskId) (request : Option Command) : Prop :=
  ∃ earlier later s deadline, evs = earlier ++ .step id :: later ∧
    (h.run earlier).tasks[id]? = some (.session s) ∧ s.stage = .queued request deadline ∧
    (h.run earlier).resources.lock.holder = some id

/-- What an event does to the store on behalf of a session is to append what the session stores. -/
theorem Result.effect {s : Session} (hr : h.Result ev entry h') (hc : ev.Concerns id)
    (ht : h.tasks[id]? = some (.session s)) :
    h'.resources.store = h.resources.store.appendAll (stored id entry.toList) := by
  cases hr with
  | spawn | elapse => cases hc
  | nothing => rfl
  | @change _ i t t' d r' ht' hch =>
    obtain rfl : i = id := by cases hch <;> exact hc
    obtain rfl : t = .session s := Option.some.inj (ht'.symm.trans ht)
    have hs : r'.store = _ := Resources.store_congr hch.ledger
    cases d with
    | none => exact hs
    | some d =>
      obtain ⟨request, rfl⟩ : ∃ request, d = .exchange request := by
        cases hch with
        | session m =>
          obtain ⟨request, _, he, _⟩ := m.asked rfl
          exact ⟨request, he⟩
      have hstored : stored i [Entry.made i h.resources (.exchange request)] =
          (Deed.exchange request).stored := by
        simp [stored, own, Entry.made]
      change r'.store = h.resources.store.appendAll
        (stored i [Entry.made i h.resources (.exchange request)])
      rw [hs, hstored, ← Deed.records_exchange]
      exact Deed.store_act _ _

theorem exchange_of_deed? {t : Task} {r : Resources} {request : Option Command}
    (hd : t.deed? id r = some (.exchange request)) :
    ∃ s deadline, t = .session s ∧ s.stage = .queued request deadline ∧
      r.lock.holder = some id := by
  have herrand : ∀ e : Errand, e.deed? id r ≠ some (.exchange request) := by
    intro e he
    unfold Errand.deed? at he
    repeat' split at he
    all_goals cases he
  cases t with
  | session s =>
    simp only [Task.deed?, Session.deed?] at hd
    split at hd
    case h_1 hs =>
      split at hd
      case isTrue hh =>
        obtain rfl := Deed.exchange.inj (Option.some.inj hd)
        exact ⟨s, _, rfl, hs, hh⟩
      case isFalse => cases hd
    case h_2 => cases hd
  | errand e => exact absurd hd (herrand e)
  | ticker t =>
    simp only [Task.deed?, Ticker.deed?] at hd
    split at hd
    · exact absurd hd (herrand _)
    · cases hd

theorem obtains_iff {request : Option Command} : h.Obtains evs id request ↔
    ∃ e ∈ h.history evs, e.task = id ∧ e.deed = .exchange request := by
  constructor
  · rintro ⟨earlier, later, s, deadline, rfl, ht, hs, hh⟩
    refine ⟨.made id (h.run earlier).resources (.exchange request), ?_, rfl, rfl⟩
    refine mem_history.mpr ⟨earlier, .step id, later, rfl, ?_⟩
    simp [part?, ht, Task.deed?, Session.deed?_queued hs, hh]
  · rintro ⟨e, he, rfl, hd⟩
    obtain ⟨earlier, ev, later, rfl, hentry⟩ := mem_history.mp he
    cases ev with
    | step i =>
      obtain ⟨t, ht, hmade⟩ := Option.bind_eq_some_iff.mp hentry
      obtain ⟨d, hdeed, rfl⟩ := Option.map_eq_some_iff.mp hmade
      obtain rfl : d = .exchange request := hd
      obtain ⟨s, deadline, rfl, hs, hh⟩ := exchange_of_deed? hdeed
      exact ⟨earlier, later, s, deadline, rfl, ht, hs, hh⟩
    | _ => cases hentry

theorem mem_stored {record : Record} : record ∈ stored id (h.history evs) ↔
    h.Obtains evs id (some (.append record)) := by
  rw [obtains_iff, mem_own]
  simp only [stored, List.mem_flatMap]
  constructor
  · rintro ⟨⟨d, answer⟩, hm, hr⟩
    refine ⟨answer, ?_⟩
    rcases d with (_ | _ | record') | op
    · cases hr
    · cases hr
    · obtain rfl := List.mem_singleton.mp hr
      exact hm
    · cases hr
  · rintro ⟨answer, hm⟩
    exact ⟨_, hm, List.mem_singleton.mpr rfl⟩

theorem Result.settles {result : Except ServiceError Session.Outcome} (hr : h.Result ev entry h')
    {s : Session} (ht : h.tasks[id]? = some (.session s)) (hs : s.Settles result) :
    ∃ s', h'.tasks[id]? = some (.session s') ∧ s'.Settles result := by
  obtain ⟨hlt, -⟩ := List.getElem?_eq_some_iff.mp ht
  cases hr with
  | spawn => exact ⟨s, (List.getElem?_append_left hlt).trans ht, hs⟩
  | elapse | nothing => exact ⟨s, ht, hs⟩
  | @change _ i t t' d r' ht' hc =>
    by_cases hi : i = id
    · subst hi
      obtain rfl : t = .session s := Option.some.inj (ht'.symm.trans ht)
      have hput : (h.put i (t', r')).tasks[i]? = some t' := by simp [put, hlt]
      rw [hput]
      cases hc with
      | session m => exact ⟨_, rfl, m.settles hs⟩
      | kill => exact ⟨_, rfl, Session.settles_kill hs i _⟩
      | feed | allow => exact ⟨_, rfl, hs⟩
    · exact ⟨s, by simpa [put, hi] using ht, hs⟩

theorem run_settles {result : Except ServiceError Session.Outcome} {s s' : Session}
    (ht : h.tasks[id]? = some (.session s)) (hs : s.Settles result)
    (ht' : (h.run evs).tasks[id]? = some (.session s')) : s'.Settles result := by
  induction evs generalizing h s with
  | nil =>
    obtain rfl := Task.session.inj (Option.some.inj (ht.symm.trans ht'))
    exact hs
  | cons ev evs ih =>
    obtain ⟨s₁, ht₁, hs₁⟩ := (h.next_result ev).settles ht hs
    exact ih ht₁ hs₁ ht'

theorem Result.not_killed (hr : h.Result ev entry h') (hp : ev.Proper) (hk : ev ≠ .kill id)
    (ih : ∀ s, h.tasks[id]? = some (.session s) → s.stage ≠ .killed) {s' : Session}
    (ht : h'.tasks[id]? = some (.session s')) : s'.stage ≠ .killed := by
  cases hr with
  | spawn t =>
    rcases task_spawn ht with ⟨-, rfl⟩ | ⟨-, ht⟩
    · rw [Session.Fresh.reading hp]
      exact nofun
    · exact ih s' ht
  | elapse | nothing => exact ih s' ht
  | @change _ i t t' d r' hi hc =>
    rcases task_put ht with ⟨rfl, hu⟩ | ⟨-, hu⟩
    · clear ht
      cases hc with
      | session m =>
        obtain rfl := Task.session.inj hu
        exact m.not_killed (ih _ hi)
      | kill => exact absurd rfl hk
      | feed s₀ | allow s₀ =>
        obtain rfl := Task.session.inj hu
        have hs₀ := ih s₀ hi
        exact hs₀
      | errand | ticker | fire | letGo | warn => cases hu
    · exact ih s' hu

theorem run_not_killed (hs : h.Starts) (hp : ∀ ev ∈ evs, ev.Proper)
    (hk : ∀ ev ∈ evs, ev ≠ .kill id) :
    ∀ s, (h.run evs).tasks[id]? = some (.session s) → s.stage ≠ .killed := by
  induction evs using List.reverseRecOn with
  | nil =>
    intro s ht
    simp [run, hs.tasks] at ht
  | append_singleton evs ev ih =>
    intro s ht
    rw [run_concat] at ht
    refine (next_result _ ev).not_killed (hp ev (by simp)) (hk ev (by simp)) ?_ ht
    exact ih (fun ev he => hp ev (by simp [he])) (fun ev he => hk ev (by simp [he]))

theorem run_breaks {earlier later : List Event} {s₀ s : Session} {cause : IoError}
    {result : Except ServiceError Session.Outcome}
    (ht₀ : (h.run earlier).tasks[id]? = some (.session s₀)) (hb : s₀.Breaks cause)
    (ht : (h.run (earlier ++ .step id :: later)).tasks[id]? = some (.session s))
    (hr : s.result? = some result) : result = .error (.io none cause) := by
  obtain ⟨s₁, hstep, hsettles⟩ := hb.step id (h.run earlier).resources
  obtain ⟨hlt, -⟩ := List.getElem?_eq_some_iff.mp ht₀
  have ht₁ : ((h.run earlier).next (.step id)).tasks[id]? = some (.session s₁) := by
    rw [next_step_session ht₀ hstep]
    simp [put, hlt]
  rw [run_append] at ht
  rcases run_settles ht₁ hsettles ht with hset | hset | hset
  · simp [Session.result?, hset] at hr
  · simpa [Session.result?, hset] using hr.symm
  · simp [Session.result?, hset] at hr

theorem append_eq_ofRecord {record r : Record} (h : .append record = Command.ofRecord r) :
    record = r ∧ Directive.parse? r.bytes = none := by
  unfold Command.ofRecord at h
  split at h
  case h_1 => cases h
  case h_2 hp => exact ⟨Command.append.inj h, hp⟩

theorem stored_first_line {mine : Account} {limit : Option Nat} {script : Bytes}
    (hm : mine = [] ∨ ∃ request result, mine = [(.exchange request, .exchange result)])
    (ha : ∀ c answer, (.exchange (some c), answer) ∈ mine →
      Session.Requested limit script c) :
    mine.flatMap (fun x => x.1.stored) = [] ∨
      ∃ l rest, script.firstLine? = some (l, rest) ∧ (∀ m ∈ limit, l.length ≤ m) ∧
        Directive.parse? l = none ∧ mine.flatMap (fun x => x.1.stored) = [⟨l⟩] := by
  rcases hm with rfl | ⟨request, result, rfl⟩
  · exact .inl rfl
  · rcases request with _ | d | record
    · exact .inl rfl
    · exact .inl rfl
    · obtain ⟨l, rest, hl, hlim, hc⟩ := ha _ _ (List.mem_singleton.mpr rfl)
      obtain ⟨rfl, hparse⟩ := append_eq_ofRecord hc
      exact .inr ⟨l, rest, hl, hlim, hparse, rfl⟩

/-- What a run has made of a session, whatever has failed and wherever it was ended. -/
structure AllOrNothing (h : Hub) (evs : List Event) (id : TaskId) (s : Session) : Prop where
  /-- On behalf of the session the store is changed only by appending what it stores. -/
  effect : ∀ earlier ev later s₀, evs = earlier ++ ev :: later → ev.Concerns id →
    (h.run earlier).tasks[id]? = some (.session s₀) →
    (h.run (earlier ++ [ev])).resources.store = (h.run earlier).resources.store.appendAll
      (Hub.stored id ((h.run earlier).part? ev).toList)
  /-- It stores nothing or its first line, and no other record. -/
  stored : Hub.stored id (h.history evs) = [] ∨
    ∃ l rest, (h.script id evs).firstLine? = some (l, rest) ∧
      (∀ m ∈ s.reader.limit, l.length ≤ m) ∧ Directive.parse? l = none ∧
      Hub.stored id (h.history evs) = [⟨l⟩]
  obtained : ∀ record, record ∈ Hub.stored id (h.history evs) ↔
    h.Obtains evs id (some (.append record))
  asked : ∀ c, h.Obtains evs id (some c) →
    Session.Requested s.reader.limit (h.script id evs) c
  /-- A failure of the log is one of reading, of waiting or of a place out of range; then nothing
  is stored and nothing sent. -/
  rejected : ∀ cause, s.result? = some (.error (.log cause)) →
    Hub.stored id (h.history evs) = [] ∧ s.wire.sent = [] ∧
      (cause.isFraming = true ∨ (∃ span, cause = .lockUnavailable (.timedOut span)) ∨
        ∃ index offset, cause = .outOfRange index offset)
  broken : ∀ earlier later s₀ cause result, evs = earlier ++ .step id :: later →
    (h.run earlier).tasks[id]? = some (.session s₀) → s₀.Breaks cause →
    s.result? = some result → result = .error (.io none cause)
  /-- Once a reply is due, a first part of it is sent, all of it unless the stream fails. -/
  due : ∀ request outcome body,
    (.exchange request, .exchange (.ok (outcome, body))) ∈ own id (h.history evs) →
    s.wire.sent <+: body ∧ ∀ result, s.result? = some result →
      result = .ok outcome ∧ s.wire.sent = body ∨ ∃ cause, result = .error (.io none cause)
  /-- A session that failed on its stream while it replied owed a reply. -/
  cut : ∀ path cause, s.result? = some (.error (.io path cause)) → path = none ∧
    ∃ request outcome body,
      own id (h.history evs) = [(.exchange request, .exchange (.ok (outcome, body)))]
  shutdowns : s.wire.shutdowns = if s.result?.isSome then 1 else 0
  closed : (∀ ev ∈ evs, ev ≠ .kill id) → (Task.session s).isOver = true → s.result?.isSome = true
  /-- The run would go the same way if the shutdown came out differently. -/
  shutdown : ∀ failure earlier later, evs = earlier ++ later → id < (h.run earlier).tasks.length →
    ((h.run earlier).shutWith id failure).run later = (h.run evs).shutWith id failure

/-- A session is all or nothing in every run. -/
theorem session_allOrNothing {s : Session} (hs : h.Starts) (hp : ∀ ev ∈ evs, ev.Proper)
    (ht : (h.run evs).tasks[id]? = some (.session s)) : h.AllOrNothing evs id s := by
  have hreports : s.Reports _ _ := (run_accounted hs hp).reports id _ ht
  have hheeds := run_heeded hs hp id s ht
  refine
    { effect := ?_
      stored := stored_first_line hreports.once hheeds.done
      obtained := fun _ => mem_stored
      asked := ?_
      rejected := fun _ hr => (hreports.told hr).rejected
      broken := ?_
      due := fun _ _ _ hm => ⟨hreports.due hm, fun _ hr => (hreports.told hr).due hm⟩
      cut := fun _ _ hr => (hreports.told hr).cut_inv
      shutdowns := hheeds.shutdowns
      closed := ?_
      shutdown := ?_ }
  · intro earlier ev later s₀ _ hc ht₀
    rw [run_concat]
    exact (next_result _ ev).effect hc ht₀
  · intro c hc
    obtain ⟨answer, hm⟩ := mem_own.mp (obtains_iff.mp hc)
    exact hheeds.done c answer hm
  · rintro earlier later s₀ cause result rfl ht₀ hb hr
    exact run_breaks ht₀ hb ht hr
  · intro hk hover
    have hkilled := run_not_killed hs hp hk s ht
    unfold Task.isOver at hover
    dsimp only at hover
    split at hover
    · simp [Session.result?, *]
    · exact absurd ‹_› hkilled
    · cases hover
  · rintro failure earlier later rfl hid
    rw [run_append]
    exact run_shutWith failure hid later

def unwelcome : Session where
  wire :=
    { arrivals := [.chunk [97, 10]]
      intake := { limit := some 1, refusal := .failure (.kind .brokenPipe) }
      shutdownFailure := some (.kind .notConnected) }
  reader := .ofInitial LineReader.defaultInitial none

/-- Such a session stores a record; another session is ended while it waits for the lock. -/
def refusal : List Event :=
  [.spawn (.session unwelcome), .spawn (.session (.opened [98, 10])), .step 0, .step 0, .step 1,
    .step 1, .step 0, .kill 1, .step 0, .step 0, .step 0, .step 0]

theorem refusal_allOrNothing :
    ∃ s, ((idle 2).run refusal).tasks[0]? = some (.session s) ∧
      s.result? = some (.error (.io none (.kind .brokenPipe))) ∧ s.wire.sent = [97] ∧
      Hub.stored 0 ((idle 2).history refusal) = [⟨[97, 10]⟩] ∧
      (idle 2).AllOrNothing refusal 0 s := by
  have hs : (idle 2).Starts := idle_starts (by decide)
  have hf : unwelcome.Fresh := ⟨rfl, ⟨_, _, rfl⟩, rfl, rfl⟩
  have hp : ∀ ev ∈ refusal, ev.Proper := by
    simp [refusal, Event.Proper, Task.Fresh, Session.opened_fresh, hf]
  let s : Session :=
    { wire :=
        { unwelcome.wire with
          arrivals := []
          sent := [97]
          shutdowns := 1 }
      reader := { buffer := [], capacity := 0, initial := 1024, limit := none }
      stage := .closed (.error (.io none (.kind .brokenPipe))) }
  have ht : ((idle 2).run refusal).tasks[0]? = some (.session s) := by rfl
  exact ⟨s, ht, rfl, rfl, by decide, session_allOrNothing hs hp ht⟩

end Hub

end CommandLog
