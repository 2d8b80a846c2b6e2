import CommandLog.Proofs.Hub.Rest
import CommandLog.Proofs.Server.Change

/-! # Nobody waits for a notice that does not come

The loop that takes connections reads the board from the start, so that it misses no notice. The
ticker begins to read when the server starts; the notice that is posted for it once the loop has
been left is there for it, whatever was posted before. A tick in progress keeps the ticker from
reading only until it has got the lock or given up.
-/

namespace CommandLog

namespace Errand

variable {e e' : Errand} {id : TaskId} {r r' : Resources} {d : Option Deed}

/-- The errand brings a record into the log, and waits for the lock up to a deadline only. -/
structure Prompt (e : Errand) : Prop where
  operation : ∃ record, e.operation = .append record ∨ e.operation = .tick record
  stage : e.stage = .fresh ∨ (∃ deadline, e.stage = .queued (some deadline)) ∨
    (∃ record reply, e.stage = .copying record reply) ∨ ∃ result, e.stage = .finished result

theorem Prompt.device? (h : e.Prompt) (r : Resources) : e.operation.device? r = none := by
  obtain ⟨record, hb⟩ := h.operation
  exact Brings.device? hb r

theorem Prompt.deadline? (h : e.Prompt) (r : Resources) :
    e.operation.deadline? r = some r.deadline := by
  obtain ⟨record, hb⟩ := h.operation
  exact Brings.deadline? hb r

theorem Move.prompt (m : e.Move id r d e' r') (h : e.Prompt) : e'.Prompt := by
  refine ⟨by rw [m.deed.1]; exact h.operation, ?_⟩
  have hs := h.stage
  cases m with
  | gather _ hd => cases (h.device? r).symm.trans hd
  | queue => exact .inr (.inl ⟨r.deadline, congrArg Stage.queued (h.deadline? r)⟩)
  | collect hg => simp [hg] at hs
  | hold _ _ ho =>
    obtain ⟨record, ho' | ho'⟩ := h.operation <;> cases ho.symm.trans ho'
  | tick => exact .inr (.inr (.inl ⟨_, _, rfl⟩))
  | act | expired | copy => exact .inr (.inr (.inr ⟨_, rfl⟩))

theorem Prompt.goes (h : e.Prompt) (id : TaskId) (r : Resources) :
    (∃ result, e.stage = .finished result) ∨ (e.step? id r).isSome = true ∨
      ∃ deadline, e.stage = .queued (some deadline) ∧ r.now < deadline := by
  rcases h.stage with hs | ⟨deadline, hs⟩ | ⟨record, reply, hs⟩ | hf
  · exact .inr (.inl (by simp [step?, hs, h.device? r]))
  · by_cases hd : deadline ≤ r.now
    · refine .inr (.inl ?_)
      by_cases hh : r.lock.holder = some id <;> simp [step?, hs, hd, hh]
    · exact .inr (.inr ⟨deadline, hs, Nat.lt_of_not_le hd⟩)
  · exact .inr (.inl (by simp [step?, hs]))
  · exact .inl hf

end Errand

namespace Ticker

variable {t t' : Ticker} {id : TaskId} {r r' : Resources} {d : Option Deed}

def Prompt (t : Ticker) : Prop :=
  ∀ e, t.stage = .ticking e → e.Prompt

theorem start_prompt (period time : Span) (copies : Bool) :
    (start period time copies).Prompt := by
  intro e he
  unfold start at he
  dsimp only at he
  split at he <;> cases he

theorem Move.prompt (m : t.Move id r d t' r') (h : t.Prompt) : t'.Prompt := by
  intro e he
  cases m with
  | stop | done => cases he
  | @fire _ time =>
    obtain rfl := Stage.ticking.inj he
    exact ⟨⟨Timestamp.record time, t.brings_operation _⟩, .inl rfl⟩
  | tick hs m =>
    obtain rfl := Stage.ticking.inj he
    exact m.prompt (h _ hs)

theorem Prompt.goes {e : Errand} (h : t.Prompt) (he : t.stage = .ticking e) (id : TaskId)
    (r : Resources) : (t.step? id r).isSome = true ∨
      ∃ deadline, e.stage = .queued (some deadline) ∧ r.now < deadline := by
  rcases (h e he).goes id r with ⟨result, hf⟩ | hs | hq
  · exact .inl (by simp [step?, he, hf])
  · refine .inl ?_
    simp only [step?, he]
    split
    · rfl
    · simpa using hs
  · exact .inr hq

theorem Prompt.kill (h : t.Prompt) (id : TaskId) (r : Resources) : (t.kill id r).1.Prompt := by
  intro e he
  unfold Ticker.kill at he
  split at he
  case h_1 | h_2 => cases he
  case h_3 | h_4 => exact h e he

end Ticker

def Task.Ticks (t : Task) : Prop :=
  ∃ k, t = .ticker k ∧ k.Prompt

theorem Task.Change.ticks {ev : Hub.Event} {t t' : Task} {id : TaskId} {r r' : Resources}
    {d : Option Deed} (c : Change id r ev t d t' r') (h : t.Ticks) : t'.Ticks := by
  obtain ⟨k, rfl, hk⟩ := h
  cases c with
  | ticker m | fire m => exact ⟨_, rfl, m.prompt hk⟩
  | kill => exact ⟨_, rfl, hk.kill id r⟩
  | warn => exact ⟨_, rfl, hk⟩

namespace Server

variable {s s' : Server} {ev : Event} {evs : List Event}

/-- A ticker that reads from a place on the board ticks, and it is over or there is, or will be,
something for it. -/
def Attends (s : Server) (id : TaskId) (reader : NoticeReader) : Prop :=
  ∃ t, s.hub.tasks[id]? = some t ∧ t.Ticks ∧ (t.isOver = true ∨
    reader.behind ≤ s.board.posted ∧ (s.phase = .stopping → s.board.isReady reader = true))

structure Watched (s : Server) : Prop where
  loop : s.phase.isOpen = true → s.reader.behind = 0
  ticker : ∀ id reader, s.ticker = some (id, reader) → s.Attends id reader

theorem Starts.watched (hs : s.Starts) : s.Watched where
  loop _ := hs.reader
  ticker id reader hk := by simp [hs.ticker] at hk

theorem Watched.hub (h : s.Watched) (ev : Hub.Event) :
    Watched { s with hub := s.hub.next ev } where
  loop := h.loop
  ticker id reader hk := by
    obtain ⟨t, ht, hticks, hr⟩ := h.ticker id reader hk
    obtain ⟨t', ht', hticks', hover⟩ := (s.hub.next_result ev).task ht
      (P := fun t' => t'.Ticks ∧ (t.isOver = true → t'.isOver = true))
      (fun c => ⟨c.ticks hticks, fun ho => (c.of_isOver ho).1⟩) ⟨hticks, fun ho => ho⟩
    exact ⟨t', ht', hticks', hr.imp_left hover⟩

/-- The loop is not entered again, and once somebody waits for the ticker, there is a new notice
for it. -/
theorem Watched.congr (h : s.Watched) (hh : s'.hub.tasks = s.hub.tasks)
    (hk : s'.ticker = s.ticker) (hb : s.board.posted ≤ s'.board.posted)
    (ho : s'.phase.isOpen = true → s.phase.isOpen = true ∧ s'.reader = s.reader)
    (hp : s'.phase = .stopping → s.phase = .stopping ∨ s.board.posted < s'.board.posted) :
    s'.Watched where
  loop ho' := by
    obtain ⟨ho, hr⟩ := ho ho'
    rw [hr]
    exact h.loop ho
  ticker id reader hk' := by
    obtain ⟨t, ht, hticks, hr⟩ := h.ticker id reader (hk ▸ hk')
    refine ⟨t, hh ▸ ht, hticks, hr.imp_right ?_⟩
    rintro ⟨hle, hready⟩
    refine ⟨hle.trans hb, fun hst => ?_⟩
    simp only [NoticeBoard.isReady, decide_eq_true_eq] at hready ⊢
    rcases hp hst with hst | hlt
    · exact Nat.lt_of_lt_of_le (hready hst) hb
    · exact Nat.lt_of_le_of_lt hle hlt

theorem Result.posted_le (hr : s.Result ev s') : s.board.posted ≤ s'.board.posted := by
  cases hr with
  | trigger | drained => exact Nat.le_succ _
  | _ => exact le_rfl

theorem Result.watched (hr : s.Result ev s') (h : s.Watched) : s'.Watched := by
  cases hr with
  | nothing => exact h
  | serve hp | falter hp | resume hp =>
    exact h.congr rfl rfl le_rfl (by simp [hp, Phase.isOpen]) (by simp)
  | start interval hp =>
    refine ⟨fun _ => h.loop (by rw [hp]; rfl), ?_⟩
    rintro _ _ ⟨⟩
    have hprompt := Ticker.start_prompt interval (.ofMilliseconds s.hub.resources.now) true
    exact ⟨_, List.getElem?_concat_length, ⟨_, rfl, hprompt⟩, .inr ⟨le_rfl, by simp⟩⟩
  | trigger => exact h.congr rfl rfl (Nat.le_succ _) (fun ho => ⟨ho, rfl⟩) .inl
  | accept => exact (h.hub _).congr rfl rfl le_rfl (fun ho => ⟨ho, rfl⟩) .inl
  | leave | finish | cleared | remove =>
    exact h.congr rfl rfl le_rfl (by simp [Phase.isOpen]) (by simp)
  | @heed id _ _ t hk ht =>
    refine ⟨h.loop, ?_⟩
    rintro _ _ ⟨⟩
    obtain ⟨hlt, -⟩ := List.getElem?_eq_some_iff.mp ht
    refine ⟨.ticker { t with stopping := true, stage := .stopped }, by simp [Hub.put, hlt],
      ⟨_, rfl, ?_⟩, .inl rfl⟩
    rintro e ⟨⟩
  | drained =>
    refine h.congr rfl rfl (Nat.le_succ _) (by simp [Phase.isOpen]) fun _ => .inr ?_
    exact Nat.lt_succ_self _
  | abort | clear =>
    exact (h.hub _).congr rfl rfl le_rfl (by simp [Phase.isOpen]) (by simp)
  | hub ev => exact h.hub ev

theorem run_watched (hs : s.Starts) (evs : List Event) : (s.run evs).Watched := by
  induction evs using List.reverseRecOn with
  | nil => exact hs.watched
  | append_singleton evs ev ih =>
    rw [run_concat]
    exact (next_result _ ev).watched ih

theorem posted_run (hm : .trigger ∈ evs) : 0 < (s.run evs).board.posted := by
  induction evs using List.reverseRecOn with
  | nil => cases hm
  | append_singleton evs ev ih =>
    rw [run_concat]
    rcases List.mem_append.mp hm with hm | hm
    · exact Nat.lt_of_lt_of_le (ih hm) (next_result _ ev).posted_le
    · obtain rfl := List.mem_singleton.mp hm
      exact Nat.succ_pos _

/-- Whoever waits for a notice that the server is to stop finds one. -/
structure Alert (s : Server) (told : Prop) : Prop where
  loop : told → s.phase.isOpen = true → s.board.isReady s.reader = true
  leaves : told → s.phase = .serving →
    (s.next .leave).phase = .draining s.sessions s.drainDeadline
  pauses : ∀ last, told → s.phase = .pausing last → last ≤ s.hub.resources.now →
    ((s.next .resume).next .leave).phase = .draining s.sessions s.drainDeadline
  ticker : s.phase = .stopping → s.tickerIsOver = true ∨
    ∃ id reader, s.ticker = some (id, reader) ∧ s.board.isReady reader = true
  /-- The ticker stops upon it, but for a tick in progress, which does not wait for ever. -/
  stops : s.phase = .stopping → s.tickerIsOver = true ∨ (s.next .heed).tickerIsOver = true ∨
    ∃ id reader k e, s.ticker = some (id, reader) ∧ s.hub.tasks[id]? = some (.ticker k) ∧
      k.stage = .ticking e ∧ ((k.step? id s.hub.resources).isSome = true ∨
        ∃ deadline, e.stage = .queued (some deadline) ∧ s.hub.resources.now < deadline)

theorem phase_leave (hp : s.phase = .serving) (hr : s.board.isReady s.reader = true) :
    (s.next .leave).phase = .draining s.sessions s.drainDeadline := by
  obtain ⟨n, reader, hread⟩ := NoticeBoard.exists_of_isReady hr
  simp [next, leave?, hp, hread]

theorem tickerIsOver_of_ticker {id : TaskId} {reader : NoticeReader} {t : Task}
    (hk : s.ticker = some (id, reader)) (ht : s.hub.tasks[id]? = some t) :
    s.tickerIsOver = t.isOver := by
  simp [tickerIsOver, hk, Hub.isOver, ht]

theorem tickerIsOver_heed {id : TaskId} {reader : NoticeReader} {k : Ticker}
    (hk : s.ticker = some (id, reader)) (ht : s.hub.tasks[id]? = some (.ticker k))
    (hs : k.stage = .waiting) (hr : s.board.isReady reader = true) :
    (s.next .heed).tickerIsOver = true := by
  obtain ⟨n, reader', hread⟩ := NoticeBoard.exists_of_isReady hr
  obtain ⟨hlt, -⟩ := List.getElem?_eq_some_iff.mp ht
  have hn : s.next .heed = { s with
      hub := s.hub.put id (.ticker { k with stopping := true, stage := .stopped }, s.hub.resources)
      ticker := some (id, reader') } := by
    simp [next, heed?, hk, ht, hread, hs, next_stop_step ht hs]
  rw [hn]
  exact tickerIsOver_of_ticker rfl
    (t := .ticker { k with stopping := true, stage := .stopped }) (by simp [Hub.put, hlt])

theorem Watched.ready (h : s.Watched) (hp : s.phase = .stopping) : s.tickerIsOver = true ∨
    ∃ id reader, s.ticker = some (id, reader) ∧ s.board.isReady reader = true := by
  cases hk : s.ticker with
  | none => exact .inl (by simp [tickerIsOver, hk])
  | some x =>
    obtain ⟨t, ht, -, ho | ⟨-, hr⟩⟩ := h.ticker _ _ hk
    · exact .inl ((tickerIsOver_of_ticker hk ht).trans ho)
    · exact .inr ⟨_, _, rfl, hr hp⟩

/-- Whenever a server has been told to stop, the loop that takes connections finds a notice, and so
does the ticker once its end is waited for: no wait lasts for want of a notice. -/
theorem run_alert {settings : Settings} {host : Host} {tree : FileTree} {dial : Nat → ZonedTime}
    (hb : (bind settings host tree dial).1 = .ok s) (evs : List Event) :
    (s.run evs).Alert (.trigger ∈ evs) := by
  have hw := run_watched (bind_starts hb) evs
  have hloop : .trigger ∈ evs → (s.run evs).phase.isOpen = true →
      (s.run evs).board.isReady (s.run evs).reader = true := by
    intro hm ho
    have hpos := posted_run (s := s) hm
    simpa [NoticeBoard.isReady, hw.loop ho] using hpos
  generalize s.run evs = x at hw hloop
  refine ⟨hloop, ?_, ?_, hw.ready, ?_⟩
  · intro hm hp
    exact phase_leave hp (hloop hm (by rw [hp]; rfl))
  · intro last hm hp hl
    have hr : x.next .resume = { x with phase := .serving } := by simp [next, resume?, hp, hl]
    rw [hr]
    exact phase_leave rfl (hloop hm (by rw [hp]; rfl))
  · intro hp
    rcases hw.ready hp with ho | ⟨id, reader, hk, hr⟩
    · exact .inl ho
    · obtain ⟨t, ht, ⟨k, rfl, hprompt⟩, -⟩ := hw.ticker _ _ hk
      cases hs : k.stage with
      | waiting => exact .inr (.inl (tickerIsOver_heed hk ht hs hr))
      | ticking e => exact .inr (.inr ⟨id, reader, k, e, hk, ht, hs, hprompt.goes hs id _⟩)
      | stopped | killed =>
        refine .inl ((tickerIsOver_of_ticker hk ht).trans ?_)
        simp [Task.isOver, hs]

/-- A server that was told to stop before it started: its ticker finds the later notice. -/
theorem scribe_alert :
    let evs : List Event := [.trigger, .trigger, .start, .leave, .proceed]
    (bind scribe.settings .looped .standard scribe.hub.resources.dial).1 = .ok scribe ∧
      .trigger ∈ evs ∧ (scribe.run evs).phase = .stopping ∧ (scribe.run evs).tickerIsOver = false ∧
      (scribe.run evs).Alert (.trigger ∈ evs) := by
  refine ⟨bind_scribe, ?_, rfl, rfl, run_alert bind_scribe _⟩
  exact List.mem_cons_self

end Server

end CommandLog
