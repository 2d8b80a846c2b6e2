import CommandLog.Hub.Basic
import CommandLog.Proofs.Hub.Errand

/-! # What an event does to a hub

An event adds a task, lets time pass or changes one task. Whatever the task, the change takes at
most one turn at the lock of the store and leaves the ledger as its deed does; the store changes
only under the lock.
-/

namespace CommandLog

open FairLock

namespace Task

variable {ev : Hub.Event} {t t' : Task} {id : TaskId} {r r' : Resources} {d : Option Deed}

def deed? (t : Task) (id : TaskId) (r : Resources) : Option Deed :=
  match t with
  | session s => s.deed? id r
  | errand e => e.deed? id r
  | ticker t => t.deed? id r

def stake : Task → Stake
  | session s => s.stake
  | errand e => e.stake
  | ticker t => t.stake

def errand? : Task → Option Errand
  | session _ => none
  | errand e => some e
  | ticker t =>
    match t.stage with
    | .ticking e => some e
    | _ => none

theorem errand?_ticker {t : Ticker} {e : Errand} :
    (ticker t).errand? = some e ↔ t.stage = .ticking e := by
  cases hs : t.stage <;> simp [errand?, hs]

/-- What an event does to the one task that it concerns, with the deed done in it. -/
inductive Change (id : TaskId) (r : Resources) :
    Hub.Event → Task → Option Deed → Task → Resources → Prop where
  | session {s s' : Session} {d : Option Deed} {r' : Resources} : s.Move id r d s' r' →
      Change id r (.step id) (.session s) d (.session s') r'
  | errand {e e' : Errand} {d : Option Deed} {r' : Resources} : e.Move id r d e' r' →
      Change id r (.step id) (.errand e) d (.errand e') r'
  | ticker {t t' : Ticker} {d : Option Deed} {r' : Resources} : t.Move id r d t' r' →
      Change id r (.step id) (.ticker t) d (.ticker t') r'
  | fire {t t' : Ticker} : t.Move id r none t' r → t.stage = .waiting →
      Change id r (.fire id) (.ticker t) none (.ticker t') r
  | kill (t : Task) : Change id r (.kill id) t none (t.kill id r).1 (t.kill id r).2
  | letGo (e : Errand) :
      Change id r (.letGo id) (.errand e) none (.errand (e.letGo r).1) (e.letGo r).2
  | feed (s : Session) (as : List Arrival) (ends : Option Bool) :
      Change id r (.feed id as ends) (.session s) none
        (.session { s with wire := s.wire.feed as ends }) r
  | allow (s : Session) (more : Option Nat) :
      Change id r (.allow id more) (.session s) none
        (.session { s with wire := s.wire.allow more }) r
  | warn (t : Ticker) :
      Change id r (.stop id) (.ticker t) none (.ticker { t with stopping := true }) r

theorem step?_change (h : t.step? id r = some (t', r')) :
    Change id r (.step id) t (t.deed? id r) t' r' := by
  cases t with
  | session s =>
    obtain ⟨⟨s', r''⟩, hm, he⟩ := Option.map_eq_some_iff.mp h
    obtain ⟨rfl, rfl⟩ := Prod.mk.inj he
    exact .session (Session.step?_move hm)
  | errand e =>
    obtain ⟨⟨e', r''⟩, hm, he⟩ := Option.map_eq_some_iff.mp h
    obtain ⟨rfl, rfl⟩ := Prod.mk.inj he
    exact .errand (Errand.step?_move hm)
  | ticker t =>
    obtain ⟨⟨t', r''⟩, hm, he⟩ := Option.map_eq_some_iff.mp h
    obtain ⟨rfl, rfl⟩ := Prod.mk.inj he
    exact .ticker (Ticker.step?_move hm)

theorem deed?_of_step?_eq_none (h : t.step? id r = none) : t.deed? id r = none := by
  cases t with
  | session s => exact Session.deed?_of_step?_eq_none (Option.map_eq_none_iff.mp h)
  | errand e => exact Errand.deed?_of_step?_eq_none (Option.map_eq_none_iff.mp h)
  | ticker t =>
    have h : t.step? id r = none := Option.map_eq_none_iff.mp h
    simp only [deed?, Ticker.deed?]
    split
    case h_1 e hs =>
      simp only [Ticker.step?, hs] at h
      split at h
      · cases h
      · exact Errand.deed?_of_step?_eq_none (Option.map_eq_none_iff.mp h)
    case h_2 => rfl

theorem stake_kill (t : Task) (id : TaskId) (r : Resources) : (t.kill id r).1.stake = .out := by
  cases t with
  | session s => exact s.stake_kill id r
  | errand e => exact e.stake_kill id r
  | ticker t => exact t.stake_kill id r

/-- The operation under way is the one that was, but for a step, or a tick that has just been
taken. -/
theorem Change.errand_forall {P : Errand → Prop} (c : Change id r ev t d t' r')
    (fire : ∀ k time, t = .ticker k → P { operation := k.operation (Timestamp.record time) })
    (move : ∀ {e d e' r'}, Errand.Move e id r d e' r' → P e → P e')
    (kill : ∀ e : Errand, P e → P (e.kill id r).1) (letGo : ∀ e : Errand, P e → P (e.letGo r).1)
    (h : ∀ e ∈ t.errand?, P e) : ∀ e ∈ t'.errand?, P e := by
  have hticker : ∀ {k k' : Ticker} {d : Option Deed} {r' : Resources}, t = .ticker k →
      k.Move id r d k' r' → ∀ e ∈ (Task.ticker k').errand?, P e := by
    rintro k k' d r' rfl m e he
    have he := errand?_ticker.mp he
    cases m with
    | stop | done => cases he
    | fire =>
      obtain rfl := Ticker.Stage.ticking.inj he
      exact fire k _ rfl
    | tick hs m =>
      obtain rfl := Ticker.Stage.ticking.inj he
      exact move m (h _ (errand?_ticker.mpr hs))
  cases c with
  | session | feed | allow => rintro _ ⟨⟩
  | errand m =>
    rintro e ⟨⟩
    exact move m (h _ rfl)
  | ticker m | fire m => exact hticker rfl m
  | kill =>
    intro e he
    cases t with
    | session => cases he
    | errand e' =>
      obtain rfl := Option.some.inj he
      exact kill e' (h e' rfl)
    | ticker k =>
      have he : (k.kill id r).1.stage = .ticking e := errand?_ticker.mp he
      refine h e (errand?_ticker.mpr ?_)
      unfold Ticker.kill at he
      split at he
      case h_1 | h_2 => cases he
      case h_3 | h_4 => exact he
  | letGo e' =>
    rintro e ⟨⟩
    exact letGo e' (h e' rfl)
  | warn => exact h

theorem Change.operation_forall {P : Operation → Prop} (c : Change id r ev t d t' r')
    (fire : ∀ k time, t = .ticker k → P (k.operation (Timestamp.record time)))
    (h : ∀ e ∈ t.errand?, P e.operation) : ∀ e ∈ t'.errand?, P e.operation := by
  refine c.errand_forall (P := fun e => P e.operation) fire ?_ ?_ ?_ h
  · intro e d e' r' m he
    rwa [m.deed.1]
  · intro e he
    rwa [e.operation_kill]
  · intro e he
    rwa [e.operation_letGo]

theorem Change.turn (c : Change id r ev t d t' r') : Turn id r.lock t.stake r'.lock t'.stake := by
  cases c with
  | session m => exact m.turn
  | errand m => exact m.turn
  | ticker m | fire m => exact m.turn
  | kill =>
    rw [stake_kill]
    cases t with
    | session s => exact s.kill_turn id r
    | errand e => exact e.kill_turn id r
    | ticker t => exact t.kill_turn id r
  | letGo e => exact e.letGo_turn id r
  | feed | allow | warn => exact .keep

theorem Change.ledger (c : Change id r ev t d t' r') :
    r'.ledger = (d.elim r fun d => (d.act r).2).ledger := by
  cases c with
  | session m => exact m.ledger
  | errand m => exact m.ledger
  | ticker m | fire m => exact m.ledger
  | kill =>
    cases t with
    | session s => exact s.ledger_kill id r
    | errand e => exact e.ledger_kill id r
    | ticker t => exact t.ledger_kill id r
  | letGo e => exact e.ledger_letGo r
  | feed | allow | warn => rfl

/-- A deed that needs the lock is done by the holder, who has asked and then knows or leaves. -/
theorem Change.locks {d : Deed} (c : Change id r ev t (some d) t' r') (hd : d.locks = true) :
    r.lock.holder = some id ∧ t.stake = .asked ∧ t'.stake ≠ .asked := by
  cases c with
  | session m => exact m.locks
  | errand m => exact m.locks hd
  | ticker m =>
    cases m with
    | tick hs hm => simpa [stake, Ticker.stake, hs] using hm.locks hd

/-- Only the holder of the lock changes the store. -/
theorem Change.store (c : Change id r ev t d t' r') (hh : r.lock.holder ≠ some id) :
    r'.store = r.store := by
  have hl := Resources.store_congr c.ledger
  cases d with
  | none => exact hl
  | some d =>
    cases hd : d.locks with
    | true => exact absurd (c.locks hd).1 hh
    | false => exact hl.trans (d.store_act_of_not_locks hd r)

end Task

namespace Hub

variable {h : Hub} {id : TaskId}

def stake (h : Hub) (id : TaskId) : Stake :=
  h.tasks[id]?.elim .out Task.stake

/-- A task's part in a run. -/
structure Entry where
  task : TaskId
  deed : Deed
  answer : Answer

def Entry.made (id : TaskId) (r : Resources) (d : Deed) : Entry :=
  ⟨id, d, (d.act r).1⟩

def part? (h : Hub) : Event → Option Entry
  | .step id =>
    h.tasks[id]?.bind fun t => (t.deed? id h.resources).map (.made id h.resources)
  | _ => none

/-- What an event can do. -/
inductive Result (h : Hub) : Event → Option Entry → Hub → Prop where
  | spawn (t : Task) : Result h (.spawn t) none { h with tasks := h.tasks ++ [t] }
  | elapse (ms : Nat) :
      Result h (.elapse ms) none
        { h with resources := { h.resources with now := h.resources.now + ms } }
  | nothing (ev : Event) : Result h ev none h
  | change {ev : Event} {id : TaskId} {t t' : Task} {d : Option Deed} {r' : Resources} :
      h.tasks[id]? = some t → Task.Change id h.resources ev t d t' r' →
      Result h ev (d.map (.made id h.resources)) (h.put id (t', r'))

theorem task_put {i : TaskId} {t u : Task} {r : Resources}
    (hu : (h.put id (t, r)).tasks[i]? = some u) :
    i = id ∧ u = t ∨ i ≠ id ∧ h.tasks[i]? = some u := by
  rw [put, List.getElem?_set] at hu
  split at hu
  case isTrue he =>
    split at hu
    · exact .inl ⟨he.symm, (Option.some.inj hu).symm⟩
    · cases hu
  case isFalse he => exact .inr ⟨Ne.symm he, hu⟩

theorem task_spawn {t u : Task} (hu : (h.tasks ++ [t])[id]? = some u) :
    id = h.tasks.length ∧ u = t ∨ id < h.tasks.length ∧ h.tasks[id]? = some u := by
  rcases Nat.lt_or_ge id h.tasks.length with hlt | hge
  · rw [List.getElem?_append_left hlt] at hu
    exact .inr ⟨hlt, hu⟩
  · rw [List.getElem?_append_right hge, List.getElem?_singleton] at hu
    split at hu
    case isTrue he =>
      have hle : id ≤ h.tasks.length := Nat.sub_eq_zero_iff_le.mp he
      exact .inl ⟨Nat.le_antisymm hle hge, (Option.some.inj hu).symm⟩
    case isFalse => cases hu

theorem next_step_session {s s' : Session} {r' : Resources}
    (ht : h.tasks[id]? = some (.session s)) (hs : s.step? id h.resources = some (s', r')) :
    h.next (.step id) = h.put id (.session s', r') := by
  simp [next, step?, ht, Task.step?, hs]

theorem Result.length_le {h' : Hub} {ev : Event} {entry : Option Entry}
    (hr : h.Result ev entry h') : h.tasks.length ≤ h'.tasks.length := by
  cases hr with
  | spawn => simp
  | elapse | nothing => exact le_rfl
  | change => simp [put]

theorem modify_result {h : Hub} {ev : Event} {id : TaskId} {f : Task → Task}
    (hf : ∀ t, f t = t ∨ Task.Change id h.resources ev t none (f t) h.resources) :
    h.Result ev none { h with tasks := h.tasks.modify id f } := by
  cases ht : h.tasks[id]? with
  | none =>
    rw [List.modify_eq_self (List.getElem?_eq_none_iff.mp ht)]
    exact .nothing _
  | some t =>
    have : Inhabited Task := ⟨t⟩
    obtain ⟨hlt, hget⟩ := List.getElem?_eq_some_iff.mp ht
    rw [List.modify_eq_set, ht, Option.getD_some]
    rcases hf t with he | hc
    · rw [he, ← hget, List.set_getElem_self]
      exact .nothing _
    · exact .change ht hc

theorem next_result (h : Hub) (ev : Event) : h.Result ev (h.part? ev) (h.next ev) := by
  cases ev with
  | step id =>
    cases ht : h.tasks[id]? with
    | none => simpa [next, step?, part?, ht] using .nothing _
    | some t =>
      cases hs : t.step? id h.resources with
      | none =>
        simpa [next, step?, part?, ht, hs, Task.deed?_of_step?_eq_none hs] using .nothing _
      | some res =>
        simpa [next, step?, part?, ht, hs] using .change ht (Task.step?_change hs)
  | fire id =>
    simp only [next, part?]
    split
    case h_1 t ht =>
      split
      case h_1 t' hf =>
        exact .change ht (.fire (Ticker.fire?_move id hf) (Ticker.waiting_of_fire? hf))
      case h_2 => exact .nothing _
    case h_2 => exact .nothing _
  | spawn t => exact .spawn t
  | kill id =>
    simp only [next, part?]
    split
    case h_1 t ht => exact .change ht (.kill t)
    case h_2 => exact .nothing _
  | elapse ms => exact .elapse ms
  | feed id as ends =>
    refine modify_result fun t => ?_
    cases t with
    | session s => exact .inr (.feed s as ends)
    | _ => exact .inl rfl
  | allow id more =>
    refine modify_result fun t => ?_
    cases t with
    | session s => exact .inr (.allow s more)
    | _ => exact .inl rfl
  | letGo id =>
    simp only [next, part?]
    split
    case h_1 e ht => exact .change ht (.letGo e)
    case h_2 => exact .nothing _
  | stop id =>
    refine modify_result fun t => ?_
    cases t with
    | ticker t => exact .inr (.warn t)
    | _ => exact .inl rfl

/-- The part of a task in an event is the deed of the one change made in it. -/
theorem part?_change {ev : Event} {e : Entry} (he : h.part? ev = some e) :
    ∃ t t' r', h.tasks[e.task]? = some t ∧
      Task.Change e.task h.resources ev t (some e.deed) t' r' ∧
      h.next ev = h.put e.task (t', r') ∧ e.answer = (e.deed.act h.resources).1 := by
  have hr := he ▸ h.next_result ev
  generalize h.next ev = h' at hr ⊢
  generalize hx : some e = entry at hr
  cases hr with
  | spawn | elapse | nothing => cases hx
  | @change _ id t t' x r' ht hc =>
    cases x with
    | none => cases hx
    | some x =>
      cases hx
      exact ⟨t, t', r', ht, hc, rfl, rfl⟩

theorem ledger_next (h : Hub) (ev : Event) : (h.next ev).resources.ledger =
    ((h.part? ev).elim h.resources fun e => (e.deed.act h.resources).2).ledger := by
  have hr := h.next_result ev
  generalize h.next ev = h', h.part? ev = entry at hr ⊢
  cases hr with
  | spawn | elapse | nothing => rfl
  | @change _ id t t' x r' ht hc => cases x <;> exact hc.ledger

end Hub

end CommandLog
