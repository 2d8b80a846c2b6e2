import Mathlib.Logic.Relation
import CommandLog.Proofs.Hub.Run

/-! # The meaning of an exchange

A session that nobody else interferes with reads the first frame of its stream, does what the frame
asks for and sends the reply, however the stream is cut on its way in and on its way out. The whole
exchange depends on the bytes up to the first newline, on the limit and on the store.
-/

namespace CommandLog

namespace Session

variable {s : Session} {id : TaskId} {r : Resources} {outcome : Outcome} {rest body : Bytes}

/-- Some steps of a session with nothing in between. -/
def Steps (id : TaskId) : Session × Resources → Session × Resources → Prop :=
  Relation.ReflTransGen fun x y => x.1.step? id x.2 = some y

theorem Steps.head {x y z : Session × Resources} (hxy : x.1.step? id x.2 = some y)
    (hyz : Steps id y z) : Steps id x z :=
  Relation.ReflTransGen.head hxy hyz

theorem Steps.trans {x y z : Session × Resources} (hxy : Steps id x y) (hyz : Steps id y z) :
    Steps id x z :=
  Relation.ReflTransGen.trans hxy hyz

def afterReading (s : Session) (id : TaskId) (r : Resources) :
    Except LogError Frame → Session × Resources
  | .ok f => s.enqueue (request f) id r
  | .error cause => ({ s with stage := .closing (.error (.log cause)) }, r)

/-- A session reads as a line reader does that is left to itself. -/
theorem steps_read {n : Nat} {res : Except LogError Frame} (id : TaskId) (r : Resources)
    (hs : s.stage = .reading)
    (hn : (LineReader.readWithin n s.reader s.wire).result = some res) :
    ∃ as reader, Steps id (s, r) (afterReading
      { s with wire := { s.wire with arrivals := as }, reader := reader } id r res) := by
  induction n generalizing s with
  | zero => cases hn
  | succ n ih =>
    have hstep : s.step? id r = s.receive? id r := by simp only [step?, hs]
    rw [LineReader.readWithin] at hn
    unfold receive? at hstep
    split at hn
    case h_1 f next hp =>
      obtain rfl := Option.some.inj hn
      rw [hp] at hstep
      exact ⟨s.wire.arrivals, next, .head hstep .refl⟩
    case h_2 cause hp =>
      obtain rfl := Option.some.inj hn
      rw [hp] at hstep
      exact ⟨s.wire.arrivals, s.reader, .head hstep .refl⟩
    case h_3 room next hp =>
      rw [hp] at hstep
      dsimp only at hstep hn
      have hw := s.wire.read_snd room
      generalize s.wire.read room = read at hstep hn hw
      obtain ⟨reading, w⟩ := read
      obtain ⟨as, rfl⟩ : ∃ as, w = { s.wire with arrivals := as } := ⟨_, hw⟩
      split at hn
      case h_1 he =>
        obtain ⟨rfl, rfl⟩ := Prod.mk.inj he
        obtain rfl := Option.some.inj hn
        exact ⟨as, _, .head hstep .refl⟩
      case h_2 bs _ hne he =>
        obtain ⟨rfl, rfl⟩ := Prod.mk.inj he
        let s' : Session :=
          { s with wire := { s.wire with arrivals := as }, reader := next.take bs }
        obtain ⟨as', reader, hsteps⟩ := ih (s := s') hs hn
        cases bs with
        | nil => exact (hne rfl).elim
        | cons b bs => exact ⟨as', reader, .head hstep hsteps⟩
      case h_3 he =>
        obtain ⟨rfl, rfl⟩ := Prod.mk.inj he
        obtain rfl := Option.some.inj hn
        exact ⟨as, next, .head hstep .refl⟩
      case h_4 he =>
        obtain ⟨rfl, rfl⟩ := Prod.mk.inj he
        let s' : Session := { s with wire := { s.wire with arrivals := as }, reader := next }
        obtain ⟨as', reader, hsteps⟩ := ih (s := s') hs hn
        exact ⟨as', reader, .head hstep hsteps⟩
      case h_5 => cases hn

theorem steps_enter {request : Option Command} {deadline : Nat}
    (hs : s.stage = .queued request deadline) (hh : r.lock.holder = some id) :
    match exchange request r with
    | (.ok (outcome, body), after) => ∃ r', r'.store = after.store ∧
        Steps id (s, r) ({ s with stage := .replying outcome body }, r')
    | (.error cause, _) =>
      Steps id (s, r) ({ s with stage := .closing (.error (.log cause)) }, r.release) := by
  have hstep : s.step? id r = some (s.enter request r) := by simp only [step?, hs, hh, if_true]
  cases request with
  | none => exact ⟨r, rfl, .head hstep .refl⟩
  | some command =>
    cases command with
    | append record =>
      let after := (r.append record).1.transcribe record
      let outcome := Outcome.appended (r.append record).2
      have hcopy : Steps id (s.enter (some (.append record)) r)
          ({ s with stage := reply outcome (after.store.readFrom 0) }, after) := .head rfl .refl
      rw [Resources.store_transcribe] at hcopy
      exact ⟨after, Resources.store_transcribe _ _, .head hstep hcopy⟩
    | seek d =>
      simp only [enter] at hstep
      simp only [exchange]
      cases ho : r.store.locate d with
      | ok offset =>
        rw [ho] at hstep
        exact ⟨r, rfl, .head hstep .refl⟩
      | error cause =>
        rw [ho] at hstep
        exact .head hstep .refl

theorem steps_send (id : TaskId) (r : Resources) (hs : s.stage = .replying outcome rest)
    (ha : s.wire.Accepts) :
    ∃ intake, Steps id (s, r)
      ({ s with
        wire := { s.wire with sent := s.wire.sent ++ rest, intake := intake }
        stage := .flushing outcome }, r) := by
  induction hlen : rest.length using Nat.strong_induction_on generalizing s rest with
  | _ n ih =>
    by_cases hne : rest = []
    · subst hne
      have hstep : s.step? id r = some ({ s with stage := .flushing outcome }, r) := by
        simp only [step?, hs, send?, if_true]
      refine ⟨s.wire.intake, ?_⟩
      rw [List.append_nil]
      exact .head hstep .refl
    · obtain ⟨k, intake, hk, hw, ha'⟩ := ha.write hne
      let s' : Session :=
        { s with
          wire := { s.wire with sent := s.wire.sent ++ rest.take k, intake := intake }
          stage := .replying outcome (rest.drop k) }
      have hstep : s.step? id r = some (s', r) := by
        obtain ⟨k, rfl⟩ := Nat.exists_eq_succ_of_ne_zero hk.ne'
        simp only [step?, hs, send?, if_neg hne, hw]
        rfl
      have hpos : 0 < rest.length := List.length_pos_iff.mpr hne
      have hshorter : (rest.drop k).length < n := by rw [List.length_drop]; omega
      obtain ⟨intake', hsteps⟩ := ih _ hshorter (s := s') rfl ha' rfl
      refine ⟨intake', ?_⟩
      have hall : s'.wire.sent ++ rest.drop k = s.wire.sent ++ rest := by
        simp [s', List.append_assoc, List.take_append_drop]
      rw [hall] at hsteps
      exact .head hstep hsteps

theorem steps_close (id : TaskId) (r : Resources) (hs : s.stage = .flushing outcome)
    (hf : s.wire.flushFailure = none) :
    ∃ s', Steps id (s, r) (s', r.release) ∧ s'.stage = .closed (.ok outcome) ∧
      s'.wire.sent = s.wire.sent := by
  have hstep : s.step? id r = some
      ({ s with wire := s.wire.flush.2, stage := .closing (.ok outcome) }, r.release) := by
    simp only [step?, hs, Wire.flush, hf]
  exact ⟨_, .head hstep (.head rfl .refl), rfl, rfl⟩

/-- What comes of a frame or of a failure in its place: the result, the reply and the store. -/
def settle (r : Resources) : Except LogError Frame → Except ServiceError Outcome × Bytes × Store
  | .ok f =>
    match exchange (request f) r with
    | (.ok (outcome, body), after) => (.ok outcome, body, after.store)
    | (.error cause, _) => (.error (.log cause), [], r.store)
  | .error cause => (.error (.log cause), [], r.store)

/-- A session that finds the lock free comes to its end with what its first frame comes to. -/
theorem steps_settle {bytes : Bytes} (id : TaskId) (hs : s.Fresh) (hl : r.lock.holder = none)
    (hd : s.wire.Delivers bytes) (hb : s.reader.Affords bytes) (ha : s.wire.Accepts) :
    ∃ res s' r', LineReader.First s.reader.limit bytes res ∧ Steps id (s, r) (s', r') ∧
      s'.stage = .closed (settle (r.request id) res).1 ∧
      s'.wire.sent = (settle (r.request id) res).2.1 ∧
      r'.store = (settle (r.request id) res).2.2 := by
  obtain ⟨initial, limit, hr⟩ := hs.reader
  have hsound : s.reader.Sound := hr ▸ LineReader.ofInitial_sound initial limit
  have hempty : s.reader.buffer ++ bytes = bytes := by rw [hr]; rfl
  obtain ⟨res, hres, hfirst⟩ :=
    LineReader.readWithin_first (Nat.lt_succ_self _) hsound hd (hempty.symm ▸ hb)
  rw [hempty] at hfirst
  obtain ⟨as, reader, hread⟩ := steps_read id r hs.reading hres
  refine ⟨res, ?_⟩
  cases res with
  | error cause => exact ⟨_, _, hfirst, hread.trans (.head rfl .refl), rfl, hs.sent, rfl⟩
  | ok f =>
    have hh : (r.request id).lock.holder = some id := by
      simp [Resources.request, FairLock.request, hl]
    let q : Session :=
      { wire := { s.wire with arrivals := as }, reader := reader
        stage := .queued (request f) r.deadline }
    have henter := steps_enter (s := q) rfl hh
    simp only [settle]
    generalize exchange (request f) (r.request id) = x at henter
    obtain ⟨result, after⟩ := x
    cases result with
    | error cause =>
      exact ⟨_, _, hfirst, (hread.trans henter).trans (.head rfl .refl), rfl, hs.sent, rfl⟩
    | ok reply =>
      obtain ⟨outcome, body⟩ := reply
      obtain ⟨r', hstore, henter⟩ := henter
      have haq : q.wire.Accepts := ⟨ha.limit, ha.pieces, ha.chunk, ha.flush⟩
      obtain ⟨intake, hsend⟩ := steps_send id r'
        (s := { q with stage := .replying outcome body }) rfl haq
      obtain ⟨s', hclose, hstage, hsent⟩ := steps_close id r'
        (s := { q with
          wire := { q.wire with sent := q.wire.sent ++ body, intake := intake }
          stage := .flushing outcome }) rfl ha.flush
      refine ⟨s', _, hfirst, hread.trans (henter.trans (hsend.trans hclose)), hstage, ?_, hstore⟩
      rw [hsent]
      exact congrArg (· ++ body) hs.sent

/-- What an exchange comes to, case by case, for the bytes of a stream under a limit: its result,
what the peer gets and the store after it. -/
structure Exchanged (store : Store) (limit : Option Nat) (bytes : Bytes)
    (result : Except ServiceError Outcome) (reply : Bytes) (after : Store) : Prop where
  stored : ∀ l rest, bytes.firstLine? = some (l, rest) → (∀ m ∈ limit, l.length ≤ m) →
    Directive.parse? l = none →
    after = (store.append ⟨l⟩).1 ∧ reply = after.content ∧
      result = .ok (.appended (store.append ⟨l⟩).2 reply.length)
  sought : ∀ l rest d record, bytes.firstLine? = some (l, rest) → (∀ m ∈ limit, l.length ≤ m) →
    Directive.parse? l = some d → store.toList[d.index.toNat]? = some record →
    d.offset.toNat < record.length →
    let offset := Record.totalLength (store.toList.take d.index.toNat) + d.offset.toNat
    after = store ∧ reply = store.content.drop offset ∧ result = .ok (.sought offset reply.length)
  astray : ∀ l rest d, bytes.firstLine? = some (l, rest) → (∀ m ∈ limit, l.length ≤ m) →
    Directive.parse? l = some d →
    (∀ record ∈ store.toList[d.index.toNat]?, record.length ≤ d.offset.toNat) →
    after = store ∧ reply = [] ∧
      result = .error (.log (.outOfRange d.index.toNat d.offset.toNat))
  replayed : newline ∉ bytes → (∀ m ∈ limit, bytes.length + 1 ≤ m) →
    after = store ∧ reply = store.content ∧ result = .ok (.replayed reply.length)
  refused : ∀ m, limit = some m → m < bytes.opening.length + 1 →
    after = store ∧ reply = [] ∧
      ∃ length, result = .error (.log (.exhausted (.recordTooLong length m)))

theorem exchanged_settle {limit : Option Nat} {bytes : Bytes} {res : Except LogError Frame}
    (hf : LineReader.First limit bytes res) (h : r.store.Sound) :
    Exchanged r.store limit bytes (settle r res).1 (settle r res).2.1 (settle r res).2.2 where
  stored l rest hl hm hp := by
    obtain rfl := hf.eq_line hl hm
    have hc : ((r.store.append ⟨l⟩).1.readFrom 0) = (r.store.append ⟨l⟩).1.content := by
      rw [(h.append _).readFrom, List.drop_zero]
    simp [settle, request, Command.ofRecord, hp, exchange, Resources.append, hc]
  sought l rest d record hl hm hp hr ho := by
    obtain rfl := hf.eq_line hl hm
    obtain ⟨rs, hrs⟩ := h
    have hplace : r.store.locate d = .ok
        (Record.totalLength (r.store.toList.take d.index.toNat) + d.offset.toNat) := by
      rw [hrs.toList] at hr ⊢
      rw [Store.locate, hrs.resolve, hr, Option.any_some, if_pos (decide_eq_true ho)]
    simp [settle, request, Command.ofRecord, hp, exchange, hplace, Store.Sound.readFrom ⟨rs, hrs⟩]
  astray l rest d hl hm hp hr := by
    obtain rfl := hf.eq_line hl hm
    obtain ⟨rs, hrs⟩ := h
    have hplace : r.store.locate d = .error (.outOfRange d.index.toNat d.offset.toNat) := by
      rw [hrs.toList] at hr
      rw [Store.locate, hrs.resolve, if_neg]
      cases hi : rs[d.index.toNat]? with
      | none => simp
      | some record => simpa using hr record hi
    simp [settle, request, Command.ofRecord, hp, exchange, hplace]
  replayed hn hm := by
    obtain rfl := hf.eq_whole hn hm
    have hc : r.store.readFrom 0 = r.store.content := by rw [h.readFrom, List.drop_zero]
    simp [settle, request, exchange, hc]
  refused m hm hlt := by
    obtain ⟨length, rfl⟩ := hf.eq_tooLong hm hlt
    exact ⟨rfl, rfl, length, rfl⟩

end Session

namespace Hub

open Session

theorem put_self {h : Hub} {id : TaskId} {t : Task} (ht : h.tasks[id]? = some t) :
    h.put id (t, h.resources) = h := by
  obtain ⟨hlt, rfl⟩ := List.getElem?_eq_some_iff.mp ht
  simp [put]

theorem run_steps {id : TaskId} {x y : Session × Resources} (hxy : Steps id x y) {h : Hub}
    (ht : h.tasks[id]? = some (.session x.1)) (hr : h.resources = x.2) :
    ∃ n, h.run (List.replicate n (.step id)) = h.put id (.session y.1, y.2) := by
  induction hxy using Relation.ReflTransGen.head_induction_on generalizing h with
  | refl => exact ⟨0, by rw [← hr, put_self ht]; rfl⟩
  | @head x z hxz _ ih =>
    have hnext : h.next (.step id) = h.put id (.session z.1, z.2) :=
      next_step_session ht (hr ▸ hxz)
    obtain ⟨hlt, -⟩ := List.getElem?_eq_some_iff.mp ht
    obtain ⟨n, hn⟩ := ih (h := h.put id (.session z.1, z.2)) (by simp [put, hlt]) rfl
    refine ⟨n + 1, ?_⟩
    rw [List.replicate_succ, run, List.foldl_cons, hnext]
    exact hn.trans (by simp [put])

/-- Over a free lock an exchange comes to what its bytes say, whatever the pieces in which they
come in and in which the reply goes out. -/
theorem exchange_alone {h : Hub} {s : Session} {bytes : Bytes}
    (hl : h.resources.lock.holder = none) (hstore : h.resources.store.Sound) (hs : s.Fresh)
    (hd : s.wire.Delivers bytes) (hb : s.reader.Affords bytes) (ha : s.wire.Accepts) :
    ∃ n s' result,
      let h' := h.run (.spawn (.session s) :: List.replicate n (.step h.tasks.length))
      h'.tasks[h.tasks.length]? = some (.session s') ∧ s'.stage = .closed result ∧
        Exchanged h.resources.store s.reader.limit bytes result s'.wire.sent
          h'.resources.store := by
  obtain ⟨res, s', r', hfirst, hsteps, hstage, hsent, hafter⟩ :=
    steps_settle h.tasks.length hs hl hd hb ha
  obtain ⟨n, hn⟩ := run_steps hsteps (h := h.next (.spawn (.session s)))
    List.getElem?_concat_length rfl
  have hrun : h.run (.spawn (.session s) :: List.replicate n (.step h.tasks.length)) =
      (h.next (.spawn (.session s))).put h.tasks.length (.session s', r') := hn
  refine ⟨n, s', _, ?_, hstage, ?_⟩
  · rw [hrun]
    simp [put, next]
  · rw [hrun, hsent]
    have hsound : (h.resources.request h.tasks.length).store.Sound := hstore
    exact hafter ▸ exchanged_settle hfirst hsound

/-- A session whose record comes in two pieces, with a byte after it, and whose reply goes out one
byte at a time. -/
def piecewise : Session where
  wire :=
    { arrivals := [.chunk [97], .pause, .chunk [10, 98]]
      intake := { pieces := [1], chunk := some 1 } }
  reader := .ofInitial 1 (some 2)

theorem exchange_piecewise :
    ∃ n s', ((idle 1).run (.spawn (.session piecewise) :: List.replicate n (.step 0))).tasks[0]? =
        some (.session s') ∧
      s'.stage = .closed (.ok (.appended false 2)) ∧ s'.wire.sent = [97, 10] := by
  have hs : piecewise.Fresh := ⟨rfl, ⟨1, some 2, rfl⟩, rfl, rfl⟩
  have hd : piecewise.wire.Delivers [97, 10, 98] := ⟨rfl, by simp [piecewise], rfl⟩
  have hb : piecewise.reader.Affords [97, 10, 98] := by
    intro n hn _
    have hn : n ≤ 1 := hn
    have hi : piecewise.reader.initial = 1 := rfl
    rw [hi, LineReader.greatestCapacity]
    omega
  have ha : piecewise.wire.Accepts := ⟨rfl, by simp [piecewise], by simp [piecewise], rfl⟩
  obtain ⟨n, s', result, ht, hstage, he⟩ :=
    exchange_alone (h := idle 1) rfl (idle_starts Nat.one_pos).store hs hd hb ha
  obtain ⟨hafter, hreply, rfl⟩ :=
    he.stored [97, 10] [98] (by decide) (by simp [piecewise, LineReader.ofInitial]) (by decide)
  have hreply : s'.wire.sent = [97, 10] := by rw [hreply, hafter]; decide
  rw [hreply] at hstage
  exact ⟨n, s', ht, hstage, hreply⟩

end Hub

end CommandLog
