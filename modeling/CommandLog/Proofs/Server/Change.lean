import CommandLog.Proofs.Hub.Change
import CommandLog.Server.Basic

/-! # What an event does to a server

An event that can happen takes the server from one phase to the next, posts a notice, lets the
ticker read one or concerns the tasks alone. A server that was just bound has no tasks and an empty
board.
-/

namespace CommandLog

namespace NoticeBoard

variable {b : NoticeBoard} {r r' : NoticeReader} {n : Notice}

theorem isReady_of_read? (h : b.read? r = some (n, r')) : b.isReady r = true := by
  unfold read? at h
  split at h
  case isTrue => cases h
  case isFalse hr => simpa [isReady] using hr

theorem exists_of_isReady (h : b.isReady r = true) : ∃ n r', b.read? r = some (n, r') := by
  have hr : ¬ b.posted ≤ r.behind := by simpa [isReady] using h
  rw [read?, if_neg hr]
  split
  · exact ⟨_, _, rfl⟩
  · exact ⟨_, _, rfl⟩

end NoticeBoard

namespace Server

variable {s s' : Server} {ev : Event}

def Phase.isOpen : Phase → Bool
  | .bound | .serving | .pausing _ => true
  | _ => false

inductive Result (s : Server) : Event → Server → Prop where
  | nothing (ev : Event) : Result s ev s
  | serve : s.phase = .bound → Result s .start { s with phase := .serving }
  | start (interval : Span) : s.phase = .bound →
      Result s .start { s with
        hub := s.hub.next
          (.spawn (.ticker (.start interval (.ofMilliseconds s.hub.resources.now) true)))
        ticker := some (s.hub.tasks.length, s.board.subscribe)
        phase := .serving }
  | trigger : Result s .trigger { s with board := s.board.post }
  | accept (w : Wire) : s.phase = .serving →
      Result s (.accept w) { s with
        hub := s.hub.next (.spawn (.session { wire := w, reader := s.settings.lineReader }))
        sessions := s.sessions.filter (!s.hub.isOver ·) ++ [s.hub.tasks.length]
        accepted := s.accepted + 1 }
  | falter : s.phase = .serving →
      Result s .falter { s with phase := .pausing (s.hub.resources.now + pause) }
  | resume {last : Nat} : s.phase = .pausing last → last ≤ s.hub.resources.now →
      Result s .resume { s with phase := .serving }
  | leave {reader : NoticeReader} : s.phase = .serving → s.board.isReady s.reader = true →
      Result s .leave { s with
        host := s.host.close s.address
        reader := reader
        phase := .draining s.sessions s.drainDeadline }
  /-- The ticker stops upon a notice. -/
  | heed {id : TaskId} {reader reader' : NoticeReader} {t : Ticker} :
      s.ticker = some (id, reader) → s.hub.tasks[id]? = some (.ticker t) → t.stage = .waiting →
      s.board.isReady reader = true →
      Result s .heed { s with
        hub := s.hub.put id
          (.ticker { t with stopping := true, stage := .stopped }, s.hub.resources)
        ticker := some (id, reader') }
  | drained {deadline : Nat} : s.phase = .draining [] deadline →
      Result s .proceed { s with board := s.board.post, phase := .stopping }
  | finish {id : TaskId} {rest : List TaskId} {deadline : Nat} :
      s.phase = .draining (id :: rest) deadline → s.hub.isOver id = true →
      Result s .proceed { s with phase := .draining rest deadline }
  | abort {id : TaskId} {rest : List TaskId} {deadline : Nat} :
      s.phase = .draining (id :: rest) deadline → deadline ≤ s.hub.resources.now →
      Result s .proceed { s with
        hub := s.hub.next (.kill id), phase := .draining rest deadline }
  | clear : s.phase = .stopping → s.tickerIsOver = true →
      Result s .proceed { s with
        hub := s.hub.next (.spawn (.errand { operation := .clear }))
        phase := .clearing s.hub.tasks.length }
  | cleared {id : TaskId} : s.phase = .clearing id → s.hub.isOver id = true →
      Result s .proceed { s with phase := .removing }
  | remove : s.phase = .removing →
      Result s .proceed { s with
        hub := { s.hub with resources := removeTranscript s.hub.resources }
        phase := .stopped }
  | hub (ev : Hub.Event) : Result s (.hub ev) { s with hub := s.hub.next ev }

theorem next_stop_step {h : Hub} {id : TaskId} {t : Ticker} (ht : h.tasks[id]? = some (.ticker t))
    (hs : t.stage = .waiting) : (h.next (.stop id)).next (.step id) =
      h.put id (.ticker { t with stopping := true, stage := .stopped }, h.resources) := by
  have hstop : h.next (.stop id) =
      h.put id (.ticker { t with stopping := true }, h.resources) := by
    have : Inhabited Task := ⟨.ticker t⟩
    simp [Hub.next, Hub.put, List.modify_eq_set, ht]
  obtain ⟨hlt, -⟩ := List.getElem?_eq_some_iff.mp ht
  rw [hstop]
  simp [Hub.next, Hub.step?, Hub.put, hlt, Task.step?, Ticker.step?, hs]

theorem start_result (s : Server) : s.Result .start s.start := by
  unfold start
  split
  case h_1 hp =>
    unfold addTicker
    split
    case h_1 =>
      have hs : s.serve = { s with phase := .serving } := by simp [serve, hp]
      rw [hs]
      exact .serve hp
    case h_2 interval _ =>
      simp only [serve, hp]
      exact .start interval hp
  case h_2 => exact .nothing _

theorem leave_result (h : s.leave? = some s') : s.Result .leave s' := by
  unfold leave? at h
  split at h
  case h_1 hp hr =>
    obtain rfl := Option.some.inj h
    exact .leave hp (NoticeBoard.isReady_of_read? hr)
  case h_2 => cases h

theorem heed_result (h : s.heed? = some s') : s.Result .heed s' := by
  unfold heed? at h
  split at h
  case h_1 => cases h
  case h_2 id reader hk =>
    split at h
    case h_1 t _ reader' ht hr =>
      split at h
      case h_1 hs =>
        obtain rfl := Option.some.inj h
        rw [next_stop_step ht hs]
        exact .heed hk ht hs (NoticeBoard.isReady_of_read? hr)
      case h_2 => cases h
    case h_2 => cases h

theorem proceed_result (h : s.proceed? = some s') : s.Result .proceed s' := by
  unfold proceed? at h
  split at h
  case h_1 | h_2 | h_3 | h_4 => cases h
  case h_5 hp =>
    obtain rfl := Option.some.inj h
    exact .drained hp
  case h_6 id rest deadline hp =>
    unfold Drain.verdict at h
    split at h
    case h_1 hv =>
      obtain rfl := Option.some.inj h
      split at hv
      case isTrue ho => exact .finish hp ho
      case isFalse => split at hv <;> cases hv
    case h_2 hv =>
      obtain rfl := Option.some.inj h
      split at hv
      case isTrue => cases hv
      case isFalse =>
        split at hv
        case isTrue hd => exact .abort hp hd
        case isFalse => cases hv
    case h_3 => cases h
  case h_7 hp =>
    split at h
    case isTrue ho =>
      obtain rfl := Option.some.inj h
      exact .clear hp ho
    case isFalse => cases h
  case h_8 id hp =>
    split at h
    case isTrue ho =>
      obtain rfl := Option.some.inj h
      exact .cleared hp ho
    case isFalse => cases h
  case h_9 hp =>
    obtain rfl := Option.some.inj h
    exact .remove hp

theorem getD_result {next? : Option Server} (h : ∀ s', next? = some s' → s.Result ev s') :
    s.Result ev (next?.getD s) := by
  cases next? with
  | none => exact .nothing ev
  | some s' => exact h s' rfl

theorem next_result (s : Server) (ev : Event) : s.Result ev (s.next ev) := by
  cases ev with
  | start => exact s.start_result
  | trigger => exact .trigger
  | accept w =>
    refine getD_result fun s' h => ?_
    unfold accept? at h
    split at h
    case h_1 hp =>
      obtain rfl := Option.some.inj h
      exact .accept w hp
    case h_2 => cases h
  | falter =>
    refine getD_result fun s' h => ?_
    unfold falter? at h
    split at h
    case h_1 hp =>
      obtain rfl := Option.some.inj h
      exact .falter hp
    case h_2 => cases h
  | resume =>
    refine getD_result fun s' h => ?_
    unfold resume? at h
    split at h
    case h_1 last hp =>
      split at h
      case isTrue hl =>
        obtain rfl := Option.some.inj h
        exact .resume hp hl
      case isFalse => cases h
    case h_2 => cases h
  | leave => exact getD_result fun _ => leave_result
  | heed => exact getD_result fun _ => heed_result
  | proceed => exact getD_result fun _ => proceed_result
  | hub ev => exact .hub ev

theorem run_concat (s : Server) (evs : List Event) (ev : Event) :
    s.run (evs ++ [ev]) = (s.run evs).next ev := by
  simp [run]

theorem run_append (s : Server) (evs evs' : List Event) :
    s.run (evs ++ evs') = (s.run evs).run evs' := by
  simp [run]

structure Starts (s : Server) : Prop where
  phase : s.phase = .bound
  tasks : s.hub.tasks = []
  sessions : s.sessions = []
  ticker : s.ticker = none
  reader : s.reader.behind = 0

theorem bind_starts {settings : Settings} {host : Host} {tree : FileTree} {dial : Nat → ZonedTime}
    (hb : (bind settings host tree dial).1 = .ok s) : s.Starts := by
  unfold bind at hb
  split at hb
  case h_1 => cases hb
  case h_2 a store _ =>
    split at hb
    case h_1 => cases hb
    case h_2 transcript tree _ =>
      unfold listen at hb
      dsimp only at hb
      split at hb
      case h_1 => cases hb
      case h_2 =>
        obtain rfl := Except.ok.inj hb
        exact ⟨rfl, rfl, rfl, rfl, rfl⟩

/-- A server with a transcript and with the default settings otherwise. -/
def scribe : Server :=
  let settings : Settings := { backingFile := some "/tmp/log" }
  let tree : FileTree :=
    { FileTree.standard.add ["tmp", "log"] (.file 0) with contents := [[]] }
  let address : SocketAddress := .v4 ⟨0, 0, 0, 0⟩ 9000
  ofListener settings { Host.looped with listening := [address] } address
    (resources settings (.empty Store.defaultCapacity) (some ⟨⟨"/tmp/log"⟩, ⟨.file 0, 0⟩⟩) tree
      fun _ => ⟨0, 0, 0⟩)

theorem bind_scribe :
    (bind scribe.settings .looped .standard scribe.hub.resources.dial).1 = .ok scribe := by
  rfl

end Server

end CommandLog
