import CommandLog.Proofs.Hub.Change
import CommandLog.Proofs.Hub.Schedule

/-! # Ticks under way

What a ticker does in a step is read off the step: it takes a tick, stores what its errand brings or
gives up. Every step continues what has been done before in the order of a schedule.
-/

namespace CommandLog

namespace Errand

variable {e e' : Errand} {id : TaskId} {r r' : Resources} {d : Option Deed} {record : Record}

/-- Nothing is left to do but to write the record to the transcript, if that. -/
def IsSettled (e : Errand) : Prop :=
  (∃ record reply, e.stage = .copying record reply) ∨ ∃ result, e.stage = .finished result

theorem Brings.records (h : e.Brings record) (r : Resources) :
    (Deed.errand e.operation).records r = [record] := by
  rcases h with ho | ho <;> rw [ho] <;> rfl

theorem Brings.ne_clear (h : e.Brings record) : Deed.errand e.operation ≠ .errand .clear := by
  rcases h with ho | ho <;> rw [ho] <;> nofun

theorem Brings.move_fresh (h : e.Brings record) (hs : e.stage = .fresh)
    (m : e.Move id r d e' r') :
    d = none ∧ e' = { e with stage := .queued (some r.deadline) } := by
  cases m with
  | gather _ hd => cases (h.device? r).symm.trans hd
  | queue => exact ⟨rfl, by rw [h.deadline? r]⟩
  | collect hs' | hold hs' | tick hs' | act hs' | expired hs' | copy hs' =>
    cases hs.symm.trans hs'

theorem Brings.move_queued {deadline : Option Nat} (h : e.Brings record)
    (hs : e.stage = .queued deadline) (m : e.Move id r d e' r') : e'.IsSettled ∧
      (d = some (.errand e.operation) ∧ (∀ cause, e'.stage ≠ .finished (.error cause)) ∨
        d = none ∧ e'.stage = .finished (.error r.lockTimeout) ∧
          ∃ last ∈ deadline, last ≤ r.now) := by
  cases m with
  | gather hs' | collect hs' | copy hs' => cases hs.symm.trans hs'
  | queue hs' => rcases hs' with hs' | hs' <;> cases hs.symm.trans hs'
  | hold _ _ ho => rcases h with ho' | ho' <;> cases ho.symm.trans ho'
  | tick => exact ⟨.inl ⟨_, _, rfl⟩, .inl ⟨rfl, nofun⟩⟩
  | act =>
    refine ⟨.inr ⟨_, rfl⟩, .inl ⟨rfl, fun cause hc => ?_⟩⟩
    have hc := Stage.finished.inj hc
    rcases h with ho | ho <;> simp [ho, Operation.act] at hc
  | expired hs' _ hd =>
    obtain rfl := Stage.queued.inj (hs.symm.trans hs')
    exact ⟨.inr ⟨_, rfl⟩, .inr ⟨rfl, rfl, hd⟩⟩

theorem IsSettled.move (h : e.IsSettled) (m : e.Move id r d e' r') :
    d = none ∧ ∃ reply, e'.stage = .finished (.ok reply) := by
  have hs : ∀ stage, e.stage = stage → (∃ record reply, stage = .copying record reply) ∨
      ∃ result, stage = .finished result := by
    rintro _ rfl
    exact h
  cases m with
  | queue hs' => rcases hs' with hs' | hs' <;> simpa using hs _ hs'
  | gather hs' | collect hs' | hold hs' | tick hs' | act hs' | expired hs' =>
    simpa using hs _ hs'
  | copy => exact ⟨rfl, _, rfl⟩

end Errand

namespace Ticker

variable {k k' : Ticker} {id : TaskId} {r r' : Resources} {d : Option Deed} {period start : Span}
  {log : List Act}

/-- What a ticker does that goes from one state to another at some time, the deed apart. -/
def turn? (k k' : Ticker) (now : Nat) : Option Act :=
  match k.stage, k'.stage with
  | .waiting, .ticking _ => some (.take now)
  | .ticking e, .ticking e' =>
    match e.stage, e'.stage with
    | .queued _, .finished (.error cause) => some (.giveUp now cause)
    | _, _ => none
  | _, _ => none

def acts (k k' : Ticker) (d : Option Deed) (r : Resources) : List Act :=
  (d.elim [] (·.records r)).map .store ++ (k.turn? k' r.now).toList

theorem acts_of_stage_eq (h : k'.stage = k.stage) (r : Resources) : k.acts k' none r = [] := by
  have ht : k.turn? k' r.now = none := by
    unfold turn?
    rw [h]
    split
    case h_1 hw ht => cases hw.symm.trans ht
    case h_2 he he' =>
      obtain rfl := Stage.ticking.inj (he.symm.trans he')
      split
      case h_1 hq hf => cases hq.symm.trans hf
      case h_2 => rfl
    case h_3 => rfl
  simp [acts, ht]

theorem acts_of_not_ticking (h : ∀ e, k'.stage ≠ .ticking e) (r : Resources) :
    k.acts k' none r = [] := by
  have ht : k.turn? k' r.now = none := by
    unfold turn?
    split
    case h_1 he | h_2 he => exact absurd he (h _)
    case h_3 => rfl
  simp [acts, ht]

theorem records_acts (k k' : Ticker) (d : Option Deed) (r : Resources) :
    records (k.acts k' d r) = d.elim [] (·.records r) := by
  have ht : ∀ a ∈ k.turn? k' r.now, a.record? = none := by
    intro a ha
    unfold turn? at ha
    split at ha
    case h_1 => cases ha; rfl
    case h_2 =>
      split at ha
      · cases ha; rfl
      · cases ha
    case h_3 => cases ha
  have hm : ∀ rs : List Record, records (rs.map .store) = rs := by
    intro rs
    induction rs with
    | nil => rfl
    | cons record rs ih => simp [Act.record?, ih]
  rw [acts, records_append, hm]
  cases hk : k.turn? k' r.now with
  | none => simp
  | some a => simp [ht a hk]

/-- How far a ticker has come, by what it has done. Only a ticker that waits comes to a stop; it may
be killed anywhere. -/
inductive StageAfter (r : Resources) (log : List Act) : Stage → Prop where
  | waiting : Regular r.dial r.timeout log → StageAfter r log .waiting
  /-- A tick has been taken, and its errand has not got the lock. -/
  | asking {done : List Act} {time : Nat} {e : Errand} : Regular r.dial r.timeout done →
      log = done ++ [.take time] → e.Brings (Timestamp.record (r.dial time)) → time ≤ r.now →
      (e.stage = .fresh ∨ ∃ last, e.stage = .queued (some last) ∧
        time + r.timeout.ceilMilliseconds ≤ last ∧ last ≤ r.deadline) →
      StageAfter r log (.ticking e)
  | settled {e : Errand} : Regular r.dial r.timeout log → e.IsSettled →
      StageAfter r log (.ticking e)
  | stopped : Regular r.dial r.timeout log → StageAfter r log .stopped
  | killed : InTurn r.dial r.timeout log → StageAfter r log .killed

/-- What a ticker has done fits its schedule and what it is doing. -/
structure OnSchedule (period start : Span) (k : Ticker) (r : Resources) (log : List Act) :
    Prop where
  schedule : Schedule period start (takeTimes log) k.due
  period : k.period = period
  past : ∀ time ∈ takeTimes log, time ≤ r.now
  stageAfter : StageAfter r log k.stage

theorem StageAfter.inTurn {stage : Stage} (h : StageAfter r log stage) :
    InTurn r.dial r.timeout log := by
  cases h with
  | waiting ho | settled ho | stopped ho => exact .inl ho
  | asking ho hl => exact .inr ⟨_, _, ho, hl⟩
  | killed hu => exact hu

theorem StageAfter.later {stage : Stage} (h : StageAfter r log stage) (hd : r'.dial = r.dial)
    (ht : r'.timeout = r.timeout) (hn : r.now ≤ r'.now) : StageAfter r' log stage := by
  cases h with
  | waiting ho => exact .waiting (by rwa [hd, ht])
  | asking ho hl hb hp hs =>
    refine .asking (by rwa [hd, ht]) hl (by rwa [hd]) (hp.trans hn) (hs.imp_right ?_)
    rintro ⟨last, hq, hle, hlast⟩
    have hr : r.deadline ≤ r'.deadline := by
      unfold Resources.deadline
      rw [ht]
      exact Nat.add_le_add_right hn _
    exact ⟨last, hq, by rwa [ht], hlast.trans hr⟩
  | settled ho hs => exact .settled (by rwa [hd, ht]) hs
  | stopped ho => exact .stopped (by rwa [hd, ht])
  | killed hu => exact .killed (by rwa [hd, ht])

theorem OnSchedule.later (h : OnSchedule period start k r log) (hd : r'.dial = r.dial)
    (ht : r'.timeout = r.timeout) (hn : r.now ≤ r'.now) : OnSchedule period start k r' log where
  period := h.period
  schedule := h.schedule
  past time hm := (h.past time hm).trans hn
  stageAfter := h.stageAfter.later hd ht hn

theorem OnSchedule.records_eq_nil_or (h : OnSchedule period start k r log) : records log = [] ∨
    0 < (records log).length ∧ start.nanoseconds + (records log).length * period.nanoseconds ≤
      (Span.ofMilliseconds r.now).nanoseconds := by
  have hle := h.stageAfter.inTurn.length_records_le
  rcases Nat.eq_zero_or_pos (records log).length with hz | hpos
  · exact .inl (List.eq_nil_of_length_eq_zero hz)
  · rcases h.schedule.length_mul_le h.past with hnil | hmul
    · rw [hnil] at hle
      exact absurd hpos (Nat.not_lt.mpr hle)
    · have hm := Nat.mul_le_mul_right period.nanoseconds hle
      exact .inr ⟨hpos, by omega⟩

theorem OnSchedule.length_records_le (h : OnSchedule period start k r log)
    (hp : 0 < period.nanoseconds) : (records log).length ≤
      ((Span.ofMilliseconds r.now).nanoseconds - start.nanoseconds) / period.nanoseconds := by
  rcases h.records_eq_nil_or with hnil | ⟨-, hle⟩
  · simp [hnil]
  · exact (Nat.le_div_iff_mul_le hp).mpr (Nat.le_sub_of_add_le' hle)

theorem OnSchedule.records_eq_nil (h : OnSchedule period start k r log)
    (hlt : (Span.ofMilliseconds r.now).nanoseconds < (start.add period).nanoseconds) :
    records log = [] := by
  rcases h.records_eq_nil_or with hnil | ⟨hpos, hle⟩
  · exact hnil
  · have hm := Nat.le_mul_of_pos_left period.nanoseconds hpos
    simp only [Span.add] at hlt
    omega

theorem acts_of_brings {e e' : Errand} {record : Record} (hs : k.stage = .ticking e)
    (hb : e.Brings record) (hf : ∀ cause, e'.stage ≠ .finished (.error cause)) :
    k.acts { k with stage := .ticking e' } (some (.errand e.operation)) r = [.store record] := by
  have ht : k.turn? { k with stage := .ticking e' } r.now = none := by
    simp only [turn?, hs]
    split
    case h_1 he' => exact absurd he' (hf _)
    case h_2 => rfl
  simp [acts, ht, hb.records]

/-- A tick that waits for the lock comes to something in the next step. -/
theorem exists_outcome {e e' : Errand} {record : Record} {deadline : Option Nat}
    (hs : k.stage = .ticking e) (hb : e.Brings record) (hst : e.stage = .queued deadline)
    (m : e.Move id r d e' r') :
    ∃ a ∈ k.acts { k with stage := .ticking e' } d r, (!a.isTake) = true := by
  obtain ⟨-, ⟨rfl, hf⟩ | ⟨rfl, he', -⟩⟩ := hb.move_queued hst m
  · rw [acts_of_brings hs hb hf]
    exact ⟨_, List.mem_singleton_self _, rfl⟩
  · exact ⟨.giveUp r.now r.lockTimeout, by simp [acts, turn?, hs, hst, he'], rfl⟩

theorem StageAfter.tick {e e' : Errand} (h : StageAfter r log (.ticking e))
    (hs : k.stage = .ticking e) (m : e.Move id r d e' r') :
    takeTimes (k.acts { k with stage := .ticking e' } d r) = [] ∧
      StageAfter r (log ++ k.acts { k with stage := .ticking e' } d r) (.ticking e') ∧
      d ≠ some (.errand .clear) := by
  cases h with
  | settled ho hse =>
    obtain ⟨rfl, reply, he'⟩ := hse.move m
    have ha : k.acts { k with stage := .ticking e' } none r = [] := by
      simp [acts, turn?, hs, he']
    rw [ha, List.append_nil]
    exact ⟨rfl, .settled ho (.inr ⟨_, he'⟩), nofun⟩
  | @asking done time _ ho hl hb hp hst =>
    rcases hst with hst | ⟨last, hst, hle, hlast⟩
    · obtain ⟨rfl, rfl⟩ := hb.move_fresh hst m
      have ha : k.acts { k with stage := .ticking { e with stage := .queued (some r.deadline) } }
          none r = [] := by
        simp [acts, turn?, hs, hst]
      rw [ha, List.append_nil]
      refine ⟨rfl, .asking ho hl hb hp (.inr ⟨_, rfl, ?_, le_rfl⟩), nofun⟩
      exact Nat.add_le_add_right hp _
    · obtain ⟨hse, ⟨rfl, hf⟩ | ⟨rfl, he', last, ⟨⟩, hdue⟩⟩ := hb.move_queued hst m
      · rw [acts_of_brings hs hb hf, hl, List.append_assoc]
        exact ⟨rfl, .settled (.stored time ho) hse, fun hc => hb.ne_clear (Option.some.inj hc)⟩
      · have ha : k.acts { k with stage := .ticking e' } none r =
            [.giveUp r.now (.lockUnavailable (.timedOut r.timeout))] := by
          simp [acts, turn?, hs, hst, he', Resources.lockTimeout]
        rw [ha, hl, List.append_assoc]
        exact ⟨rfl, .settled (.gaveUp ho (hle.trans hdue)) hse, nofun⟩

theorem Move.onSchedule (m : k.Move id r d k' r') (h : OnSchedule period start k r log) :
    OnSchedule period start k' r (log ++ k.acts k' d r) ∧ d ≠ some (.errand .clear) := by
  have hst := h.stageAfter
  cases m with
  | stop hs =>
    rw [acts_of_not_ticking (fun _ he => by cases he), List.append_nil]
    rw [hs] at hst
    cases hst with
    | waiting ho => exact ⟨⟨h.schedule, h.period, h.past, .stopped ho⟩, nofun⟩
  | fire hs hd hdue htime =>
    subst hdue htime
    rw [hs] at hst
    cases hst with
    | waiting ho =>
      have ha : k.acts { k with
          due := nextDue k.period k.due (.ofMilliseconds r.now)
          stage := .ticking { operation := k.operation (Timestamp.record (r.dial r.now)) } }
            none r = [.take r.now] := by
        simp [acts, turn?, hs]
      rw [ha]
      refine ⟨⟨?_, h.period, ?_, .asking ho rfl (k.brings_operation _) le_rfl (.inl rfl)⟩, nofun⟩
      · rw [takeTimes_append, h.period]
        exact h.schedule.take hd
      · rw [takeTimes_append]
        exact List.forall_mem_append.mpr ⟨h.past, fun t ht => (List.mem_singleton.mp ht).le⟩
  | done hs he =>
    rw [acts_of_not_ticking (fun _ he => by cases he), List.append_nil]
    refine ⟨⟨h.schedule, h.period, h.past, ?_⟩, nofun⟩
    rw [hs] at hst
    cases hst with
    | settled ho => exact .waiting ho
    | asking _ _ _ _ hst =>
      rcases hst with hst | ⟨last, hst, -⟩ <;> cases he.symm.trans hst
  | tick hs m =>
    rw [hs] at hst
    obtain ⟨ht, hst', hd⟩ := hst.tick hs m
    have hk := (takeTimes_append log _).trans (by rw [ht, List.append_nil])
    exact ⟨⟨hk ▸ h.schedule, h.period, hk ▸ h.past, hst'⟩, hd⟩

theorem stage_kill_ne (k : Ticker) (id : TaskId) (r : Resources) (e : Errand) :
    (k.kill id r).1.stage ≠ .ticking e := by
  unfold kill
  split
  case h_1 | h_2 => nofun
  case h_3 hs | h_4 hs => simp [hs]

theorem OnSchedule.kill (h : OnSchedule period start k r log) (id : TaskId) :
    OnSchedule period start (k.kill id r).1 r log := by
  have hst := h.stageAfter
  unfold Ticker.kill
  split
  case h_1 | h_2 => exact ⟨h.schedule, h.period, h.past, .killed hst.inTurn⟩
  case h_3 | h_4 => exact h

inductive Change (k : Ticker) (id : TaskId) (r : Resources) :
    Hub.Event → Option Deed → Ticker → Prop where
  | move {ev : Hub.Event} {d : Option Deed} {k' : Ticker} {r' : Resources} : k.Move id r d k' r' →
      Change k id r ev d k'
  | killed : Change k id r (.kill id) none (k.kill id r).1
  | warned : Change k id r (.stop id) none { k with stopping := true }

variable {ev : Hub.Event} {evs : List Hub.Event}

theorem Change.onSchedule (c : k.Change id r ev d k') (h : OnSchedule period start k r log) :
    OnSchedule period start k' r (log ++ k.acts k' d r) ∧ d ≠ some (.errand .clear) := by
  cases c with
  | move m => exact m.onSchedule h
  | killed =>
    rw [acts_of_not_ticking (k.stage_kill_ne id r), List.append_nil]
    exact ⟨h.kill id, nofun⟩
  | warned =>
    have hs : { k with stopping := true }.stage = k.stage := rfl
    rw [acts_of_stage_eq hs, List.append_nil]
    exact ⟨⟨h.schedule, h.period, h.past, h.stageAfter⟩, nofun⟩

theorem Change.acts_of_isOver (c : k.Change id r ev d k')
    (ho : k.stage = .stopped ∨ k.stage = .killed) : k.acts k' d r = [] := by
  cases c with
  | move m =>
    cases m with
    | stop hs | fire hs | done hs | tick hs => rcases ho with ho | ho <;> cases hs.symm.trans ho
  | killed => exact acts_of_not_ticking (k.stage_kill_ne id r) r
  | warned =>
    have hs : { k with stopping := true }.stage = k.stage := rfl
    exact acts_of_stage_eq hs r

/-- A ticker is killed by that event alone, and comes to a stop only after it was told to. -/
structure DismissedBy (id : TaskId) (evs : List Hub.Event) (k : Ticker) : Prop where
  killed : k.stage = .killed → .kill id ∈ evs
  stopping : k.stopping = true → .stop id ∈ evs
  stopped : k.stage = .stopped → .stop id ∈ evs

theorem DismissedBy.mono (h : k.DismissedBy id evs) (ev : Hub.Event) :
    k.DismissedBy id (evs ++ [ev]) where
  killed hk := List.mem_append_left _ (h.killed hk)
  stopping hk := List.mem_append_left _ (h.stopping hk)
  stopped hk := List.mem_append_left _ (h.stopped hk)

theorem Change.dismissedBy (c : k.Change id r ev d k') (h : k.DismissedBy id evs) :
    k'.DismissedBy id (evs ++ [ev]) := by
  have h' := h.mono ev
  have hlast : ev ∈ evs ++ [ev] := List.mem_concat_self
  cases c with
  | move m =>
    cases m with
    | stop _ hstop => exact ⟨nofun, h'.stopping, fun _ => h'.stopping hstop⟩
    | fire | done | tick => exact ⟨nofun, h'.stopping, nofun⟩
  | killed =>
    unfold Ticker.kill
    split
    case h_1 | h_2 => exact ⟨fun _ => hlast, h'.stopping, nofun⟩
    case h_3 | h_4 => exact h'
  | warned => exact ⟨h'.killed, fun _ => hlast, h'.stopped⟩

end Ticker

theorem Task.Change.ticker_change {ev : Hub.Event} {k : Ticker} {t' : Task} {id : TaskId}
    {r r' : Resources} {d : Option Deed} (c : Change id r ev (.ticker k) d t' r') :
    ∃ k', t' = .ticker k' ∧ k.Change id r ev d k' := by
  cases c with
  | ticker m | fire m => exact ⟨_, rfl, .move m⟩
  | kill => exact ⟨_, rfl, .killed⟩
  | warn => exact ⟨_, rfl, .warned⟩

end CommandLog
