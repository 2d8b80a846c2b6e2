import CommandLog.Proofs.Hub.Serial

/-! # What a session hears

The bytes that come to the stream of a session, at its start and later, are its script. Whatever
the session asks of the log is the first line of its script, if that keeps to the limit; bytes
after the line do not matter.
-/

namespace CommandLog

namespace Session

variable {s s' : Session} {id : TaskId} {r r' : Resources} {d : Option Deed} {script : Bytes}
  {mine : Account} {c : Command} {limit : Option Nat}

def Requested (limit : Option Nat) (script : Bytes) (c : Command) : Prop :=
  ∃ l rest, script.firstLine? = some (l, rest) ∧ (∀ m ∈ limit, l.length ≤ m) ∧ c = .ofRecord ⟨l⟩

theorem Requested.append (h : Requested limit script c) (more : Bytes) :
    Requested limit (script ++ more) c := by
  obtain ⟨l, rest, hl, hm, rfl⟩ := h
  exact ⟨l, rest ++ more, Bytes.firstLine?_append hl more, hm, rfl⟩

/-- A session keeps to its script: while it reads, nothing of it is lost; then it asks for the first
line and nothing else. Its stream is shut once it is closed, not before and not again. -/
structure Heeds (s : Session) (script : Bytes) (mine : Account) : Prop where
  reading : s.stage = .reading → s.reader.buffer ++ s.wire.awaited = script
  queued : ∀ c deadline, s.stage = .queued (some c) deadline →
    Requested s.reader.limit script c
  done : ∀ c answer, (.exchange (some c), answer) ∈ mine → Requested s.reader.limit script c
  shutdowns : s.wire.shutdowns = if s.result?.isSome then 1 else 0

theorem Fresh.heeds (h : s.Fresh) : s.Heeds s.wire.awaited [] where
  reading _ := by
    obtain ⟨initial, limit, hr⟩ := h.reader
    rw [hr]
    rfl
  queued c deadline hs := by simp [h.reading] at hs
  done c answer hm := by cases hm
  shutdowns := by simp [result?, h.reading, h.shutdowns]

theorem Move.limit_eq (m : s.Move id r d s' r') : s'.reader.limit = s.reader.limit := by
  cases m with
  | receive _ hl | frame _ hl | ended _ hl | broken _ hl => exact hl
  | _ => rfl

theorem Move.reading (m : s.Move id r d s' r') (hs' : s'.stage = .reading) :
    s.stage = .reading ∧
      s'.reader.buffer ++ s'.wire.awaited = s.reader.buffer ++ s.wire.awaited := by
  cases m with
  | receive hs _ hb => exact ⟨hs, hb⟩
  | _ => cases hs'

theorem Move.queued {deadline : Nat} (m : s.Move id r d s' r')
    (hs' : s'.stage = .queued (some c) deadline) :
    s.stage = .reading ∧ Requested s.reader.limit (s.reader.buffer ++ s.wire.awaited) c := by
  cases m with
  | receive hs => simp [hs] at hs'
  | frame hs _ hf hl =>
    obtain rfl := Option.some.inj (Stage.queued.inj hs').1
    exact ⟨hs, _, _, Bytes.firstLine?_append hf _, hl, rfl⟩
  | _ => cases hs'

theorem Move.shutdowns (m : s.Move id r d s' r')
    (h : s.wire.shutdowns = if s.result?.isSome then 1 else 0) :
    s'.wire.shutdowns = if s'.result?.isSome then 1 else 0 := by
  cases m with
  | receive hs | frame hs | ended hs | broken hs | expired hs | store hs | seek hs | astray hs
  | replay hs | copy hs | send hs | cut hs | sent hs | flush hs | unflushed hs | close hs =>
    simpa [result?, hs, reply, Wire.flush, Wire.shutdown] using h

theorem Move.heeds (m : s.Move id r d s' r') (h : s.Heeds script mine) :
    s'.Heeds script (mine ++ Deed.account r d) where
  reading hs' := by
    obtain ⟨hs, hb⟩ := m.reading hs'
    exact hb.trans (h.reading hs)
  queued c deadline hs' := by
    obtain ⟨hs, hc⟩ := m.queued hs'
    rwa [m.limit_eq, ← h.reading hs]
  done c answer hm := by
    rw [m.limit_eq]
    rcases List.mem_append.mp hm with hm | hm
    · exact h.done c answer hm
    · obtain ⟨request, deadline, he, hs⟩ := m.asked (Deed.mem_account.mp hm).1
      obtain rfl := Deed.exchange.inj he
      exact h.queued c deadline hs
  shutdowns := m.shutdowns h.shutdowns

theorem heeds_kill (h : s.Heeds script mine) (id : TaskId) (r : Resources) :
    (s.kill id r).1.Heeds script mine := by
  unfold kill
  split
  case h_1 | h_2 => exact h
  case h_3 hc hk =>
    have hn : s.result? = none := by
      unfold result?
      split
      · exact absurd ‹_› (hc _)
      · rfl
    have hshut : s.wire.shutdowns = 0 := by simpa [hn] using h.shutdowns
    exact ⟨(nomatch ·), fun _ _ hs => (nomatch hs), h.done, hshut⟩

theorem Heeds.feed (h : s.Heeds script mine) (as : List Arrival) (ends : Option Bool) :
    ({ s with wire := s.wire.feed as ends } : Session).Heeds
      (script ++ as.flatMap Arrival.bytes) mine where
  reading hs := by
    rw [← h.reading hs]
    simp [Wire.feed, Wire.awaited]
  queued c deadline hs := (h.queued c deadline hs).append _
  done c answer hm := (h.done c answer hm).append _
  shutdowns := h.shutdowns

end Session

namespace Hub

variable {h : Hub} {evs : List Event} {id : TaskId}

def heard (h : Hub) (id : TaskId) : Event → Bytes
  | .spawn (.session s) => if h.tasks.length = id then s.wire.awaited else []
  | .feed i as _ => if i = id ∧ id < h.tasks.length then as.flatMap Arrival.bytes else []
  | _ => []

/-- All bytes that have come to the stream of a session in a run. -/
def script (h : Hub) (id : TaskId) : List Event → Bytes
  | [] => []
  | ev :: evs => h.heard id ev ++ (h.next ev).script id evs

theorem script_concat (h : Hub) (id : TaskId) (evs : List Event) (ev : Event) :
    h.script id (evs ++ [ev]) = h.script id evs ++ (h.run evs).heard id ev := by
  induction evs generalizing h with
  | nil => simp [script, run]
  | cons ev' evs ih => simp [script, ih, run]

def Heeded (h : Hub) (script : TaskId → Bytes) (past : List Entry) : Prop :=
  ∀ (id : TaskId) (s : Session), h.tasks[id]? = some (.session s) →
    s.Heeds (script id) (own id past)

theorem Heeded.change {script : TaskId → Bytes} {past : List Entry} {ev : Event}
    (hh : h.Heeded script past) {t t' : Task} {d : Option Deed} {r' : Resources}
    (ht : h.tasks[id]? = some t) (hc : Task.Change id h.resources ev t d t' r')
    (hf : ∀ as ends, ev ≠ .feed id as ends) :
    (h.put id (t', r')).Heeded script
      (past ++ (d.map (.made id h.resources)).toList) := by
  intro i s hs
  rcases task_put hs with ⟨rfl, hu⟩ | ⟨hi, hu⟩
  · rw [own_change]
    clear hs
    cases hc with
    | session m =>
      obtain rfl := Task.session.inj hu
      exact m.heeds (hh i _ ht)
    | kill =>
      rw [Deed.account_none, List.append_nil]
      cases t with
      | session s₀ =>
        obtain rfl := Task.session.inj hu
        exact Session.heeds_kill (hh i s₀ ht) i _
      | errand => cases hu
      | ticker => cases hu
    | feed s₀ as ends => exact absurd rfl (hf as ends)
    | allow s₀ more =>
      obtain rfl := Task.session.inj hu
      rw [Deed.account_none, List.append_nil]
      obtain ⟨hr, hq, hd, hk⟩ := hh i s₀ ht
      exact ⟨hr, hq, hd, hk⟩
    | errand | ticker | fire | letGo | warn => cases hu
  · rw [own_change_of_ne hi]
    exact hh i s hu

theorem Heeded.feed {script : TaskId → Bytes} {past : List Entry} (hh : h.Heeded script past)
    (i : TaskId) (as : List Arrival) (ends : Option Bool) :
    (h.next (.feed i as ends)).Heeded (fun id => script id ++ h.heard id (.feed i as ends))
      past := by
  intro id s hs
  simp only [next, modifyWire, List.getElem?_modify, Option.map_eq_map,
    Option.map_eq_some_iff] at hs
  obtain ⟨t, ht, hs⟩ := hs
  obtain ⟨hlt, -⟩ := List.getElem?_eq_some_iff.mp ht
  split at hs
  case isTrue hi =>
    have hb : h.heard id (.feed i as ends) = as.flatMap Arrival.bytes := if_pos ⟨hi, hlt⟩
    beta_reduce
    rw [hb]
    cases t with
    | session s₀ =>
      obtain rfl := Task.session.inj hs
      exact (hh id s₀ ht).feed as ends
    | errand | ticker => cases hs
  case isFalse hi =>
    have hb : h.heard id (.feed i as ends) = [] := if_neg fun hc => hi hc.1
    obtain rfl : t = .session s := hs
    beta_reduce
    rw [hb, List.append_nil]
    exact hh id s ht

theorem Heeded.spawn {script : TaskId → Bytes} {past : List Entry} (hh : h.Heeded script past)
    (hn : ∀ e ∈ past, e.task < h.tasks.length) (he : script h.tasks.length = []) {t : Task}
    (ht : t.Fresh) :
    (h.next (.spawn t)).Heeded (fun id => script id ++ h.heard id (.spawn t)) past := by
  intro id s hs
  rcases task_spawn hs with ⟨rfl, rfl⟩ | ⟨hlt, hs⟩
  · have hb : h.heard h.tasks.length (.spawn (.session s)) = s.wire.awaited := if_pos rfl
    beta_reduce
    rw [hb, he, own_eq_nil hn]
    exact Session.Fresh.heeds ht
  · have hb : h.heard id (.spawn t) = [] := by
      cases t with
      | session s₀ => exact if_neg hlt.ne'
      | errand | ticker => rfl
    beta_reduce
    rw [hb, List.append_nil]
    exact hh id s hs

theorem script_eq_nil (hid : (h.run evs).tasks.length ≤ id) :
    h.script id evs = [] := by
  induction evs using List.reverseRecOn with
  | nil => rfl
  | append_singleton evs ev ih =>
    rw [run_concat] at hid
    have hle := ((h.run evs).next_result ev).length_le
    rw [script_concat, ih (hle.trans hid), List.nil_append]
    cases ev with
    | spawn t =>
      cases t with
      | session s =>
        simp only [next, List.length_append, List.length_singleton] at hid
        exact if_neg (by omega)
      | errand | ticker => rfl
    | feed i as ends => exact if_neg fun hc => absurd hc.2 (Nat.not_lt.mpr (hle.trans hid))
    | _ => rfl

theorem Result.heeded {script : TaskId → Bytes} {past : List Entry} {h' : Hub} {ev : Event}
    {entry : Option Entry} (hr : h.Result ev entry h') (hh : h.Heeded script past)
    (hs : ∀ t, ev ≠ .spawn t) (hf : ∀ i as ends, ev ≠ .feed i as ends) :
    h'.Heeded script (past ++ entry.toList) := by
  cases hr with
  | spawn t => exact absurd rfl (hs t)
  | elapse | nothing =>
    rw [Option.toList_none, List.append_nil]
    exact hh
  | change ht hc => exact hh.change ht hc (hf _)

/-- In every run every session heeds its script. -/
theorem run_heeded (hs : h.Starts) (hp : ∀ ev ∈ evs, ev.Proper) :
    (h.run evs).Heeded (fun id => h.script id evs) (h.history evs) := by
  refine run_induction (P := fun evs =>
    (h.run evs).Heeded (fun id => h.script id evs) (h.history evs))
    ?_ (fun evs ev hp hev ih => ?_) hp
  · intro id s ht
    simp [run, hs.tasks] at ht
  · have hr := (h.run evs).next_result ev
    simp only [history_concat, run_concat, script_concat]
    cases ev with
    | spawn t =>
      rw [show (h.run evs).part? (.spawn t) = none from rfl, Option.toList_none, List.append_nil]
      exact ih.spawn (run_accounted hs hp).known (script_eq_nil le_rfl) hev
    | feed i as ends =>
      rw [show (h.run evs).part? (.feed i as ends) = none from rfl, Option.toList_none,
        List.append_nil]
      exact ih.feed i as ends
    | _ =>
      simp only [heard, List.append_nil]
      exact hr.heeded ih (by simp) (by simp)

end Hub

end CommandLog
