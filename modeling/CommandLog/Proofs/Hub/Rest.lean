import CommandLog.Proofs.Hub.Parallel
import CommandLog.Proofs.Transcript.Copying

/-! # Tasks at rest

A task that has come to its end stays there, whatever happens, and neither it nor an errand that
stores nothing ever brings a record into the log. The errand that clears the store waits for the
lock as long as it takes; once it is over, the store is empty.
-/

namespace CommandLog

namespace Operation

def stores : Operation → Bool
  | append _ | tick _ => true
  | write _ data => data.contains newline
  | _ => false

theorem store_act_of_not_stores {op : Operation} (h : op.stores = false) (r : Resources) :
    (op.act r).2.store = r.store ∨ (op.act r).2.store = r.store.clear := by
  cases op with
  | append | tick => cases h
  | write n data => exact .inl (Deed.store_act_of_not_locks (d := .errand (.write n data)) h r)
  | seekTo n d => simp only [act]; split <;> exact .inl rfl
  | seek n target => simp only [act]; split <;> exact .inl rfl
  | clear => exact .inr rfl
  | snapshot | count | size | read | readAt | hold => exact .inl rfl

end Operation

/-- No record has come into the log, nor into the transcript. -/
structure Resources.Spares (r r' : Resources) : Prop where
  store : r'.store = r.store ∨ r'.store = r.store.clear
  file : r'.file = r.file

theorem Resources.Spares.refl (r : Resources) : r.Spares r where
  store := .inl rfl
  file := rfl

namespace Errand

variable {e e' : Errand} {id : TaskId} {r r' : Resources} {d : Option Deed}

/-- The errand adds nothing to the store and has nothing to copy. -/
structure Abstains (e : Errand) : Prop where
  stores : e.operation.stores = false
  copies : e.copying? = none

theorem Abstains.act (h : e.Abstains) (id : TaskId) (r : Resources) :
    r.Spares (e.leaveDevice id (e.operation.act r).2) where
  store := by
    rw [store_leaveDevice]
    exact Operation.store_act_of_not_stores h.stores r
  file := by rw [file_leaveDevice, Operation.file_act]

theorem Move.abstains (m : e.Move id r d e' r') (h : e.Abstains) : e'.Abstains ∧ r.Spares r' := by
  have hs := h.stores
  cases m with
  | gather => exact ⟨⟨hs, rfl⟩, .inl rfl, rfl⟩
  | queue => exact ⟨⟨hs, rfl⟩, .inl rfl, rfl⟩
  | collect => exact ⟨⟨hs, rfl⟩, h.act id r⟩
  | hold => exact ⟨⟨hs, rfl⟩, .refl r⟩
  | tick _ _ ho =>
    rw [ho] at hs
    cases hs
  | act =>
    refine ⟨⟨hs, rfl⟩, ?_, ?_⟩
    · rw [store_leaveDevice]
      exact Operation.store_act_of_not_stores hs r
    · rw [file_leaveDevice]
      exact e.operation.file_act r
  | expired =>
    exact ⟨⟨hs, rfl⟩, .inl (e.store_leaveDevice id _), e.file_leaveDevice id _⟩
  | copy hc =>
    have hn := h.copies
    simp [copying?, hc] at hn

theorem Abstains.kill (h : e.Abstains) (id : TaskId) (r : Resources) :
    (e.kill id r).1.Abstains ∧ r.Spares (e.kill id r).2 := by
  unfold Errand.kill
  split
  case h_1 | h_2 => exact ⟨h, .refl r⟩
  case h_3 =>
    exact ⟨⟨h.stores, rfl⟩, .inl (e.store_leaveDevice id _), e.file_leaveDevice id _⟩

theorem Abstains.letGo (h : e.Abstains) (r : Resources) :
    (e.letGo r).1.Abstains ∧ r.Spares (e.letGo r).2 := by
  unfold Errand.letGo
  split
  case h_1 => exact ⟨⟨h.stores, rfl⟩, .inl rfl, rfl⟩
  case h_2 => exact ⟨h, .refl r⟩

/-- The errand is to clear the store, and has done so if it is over. -/
structure Clears (e : Errand) (store : Store) : Prop where
  operation : e.operation = .clear
  stage : e.stage = .fresh ∨ e.stage = .queued none ∨
    e.stage = .finished (.ok .cleared) ∧ store.clear = store

/-- The errand that clears the store does not give up. -/
theorem Clears.step? (h : e.Clears r.store) (hs : e.step? id r = some (e', r')) :
    e'.Clears r'.store := by
  obtain ⟨op, stage⟩ := e
  obtain rfl : op = .clear := h.operation
  rcases h.stage with hst | hst | ⟨hst, -⟩ <;> obtain rfl : stage = _ := hst
  · obtain ⟨rfl, rfl⟩ := Prod.mk.inj (Option.some.inj hs)
    exact ⟨rfl, .inr (.inl rfl)⟩
  · simp only [Errand.step?, Option.any_none] at hs
    split at hs
    case isTrue =>
      obtain ⟨rfl, rfl⟩ := Prod.mk.inj (Option.some.inj hs)
      exact ⟨rfl, .inr (.inr ⟨rfl, congrArg Store.empty r.store.capacity_clear⟩)⟩
    case isFalse => cases hs
  · cases hs

theorem Clears.congr (h : e.Clears r.store) (hr : r.Spares r') : e.Clears r'.store := by
  refine ⟨h.operation, h.stage.imp_right (Or.imp_right ?_)⟩
  rintro ⟨hst, hc⟩
  refine ⟨hst, ?_⟩
  rcases hr.store with he | he
  · rw [he, hc]
  · rw [he, hc, hc]

theorem Clears.clear_eq {store : Store} (h : e.Clears store)
    (ho : (Task.errand e).isOver = true) : store.clear = store := by
  rcases h.stage with hst | hst | ⟨-, hc⟩
  · simp [Task.isOver, hst] at ho
  · simp [Task.isOver, hst] at ho
  · exact hc

end Errand

namespace Task

variable {ev : Hub.Event} {t t' : Task} {id : TaskId} {r r' : Resources} {d : Option Deed}

theorem kill_of_isOver (h : t.isOver = true) : t.kill id r = (t, r) := by
  cases t with
  | session s =>
    cases hs : s.stage with
    | closed | killed => simp [kill, Session.kill, hs]
    | _ => simp [isOver, hs] at h
  | errand e =>
    cases hs : e.stage with
    | finished | killed => simp [kill, Errand.kill, hs]
    | _ => simp [isOver, hs] at h
  | ticker k =>
    cases hs : k.stage with
    | stopped | killed => simp [kill, Ticker.kill, hs]
    | _ => simp [isOver, hs] at h

/-- A task that is over stays as it is, but for its stream and for being told to stop. -/
theorem Change.of_isOver (c : Change id r ev t d t' r') (h : t.isOver = true) :
    t'.isOver = true ∧ r' = r := by
  cases c with
  | session m =>
    simp only [isOver] at h
    cases m with
    | receive hs | frame hs | ended hs | broken hs | expired hs | store hs | seek hs | astray hs
    | replay hs | copy hs | send hs | cut hs | sent hs | flush hs | unflushed hs | close hs =>
      simp [hs] at h
  | errand m =>
    simp only [isOver] at h
    cases m with
    | queue hs => rcases hs with hs | hs <;> simp [hs] at h
    | gather hs | collect hs | hold hs | tick hs | act hs | expired hs | copy hs => simp [hs] at h
  | ticker m | fire m =>
    simp only [isOver] at h
    cases m with
    | stop hs | fire hs | done hs | tick hs => simp [hs] at h
  | kill =>
    rw [kill_of_isOver h]
    exact ⟨h, rfl⟩
  | letGo e =>
    cases hs : e.stage with
    | finished | killed => simp [Errand.letGo, isOver, hs]
    | _ => simp [isOver, hs] at h
  | feed | allow | warn => exact ⟨h, rfl⟩

theorem isOver_session {s : Session} (h : (session s).isOver = true) :
    s.result?.isSome = true ∨ s.stage = .killed := by
  cases hs : s.stage with
  | closed result => exact .inl (by simp [Session.result?, hs])
  | killed => exact .inr rfl
  | _ => simp [isOver, hs] at h

theorem isOver_ticker {k : Ticker} (h : (ticker k).isOver = true) :
    k.stage = .stopped ∨ k.stage = .killed := by
  cases hs : k.stage with
  | stopped => exact .inl rfl
  | killed => exact .inr rfl
  | _ => simp [isOver, hs] at h

theorem isOver_kill (t : Task) (id : TaskId) (r : Resources) : (t.kill id r).1.isOver = true := by
  cases t with
  | session s => cases hs : s.stage <;> simp [kill, Session.kill, isOver, hs]
  | errand e => cases hs : e.stage <;> simp [kill, Errand.kill, isOver, hs]
  | ticker k => cases hs : k.stage <;> simp [kill, Ticker.kill, isOver, hs]

/-- Nothing more comes from the task: it is over, or an errand that adds nothing. -/
def Spent (t : Task) : Prop :=
  t.isOver = true ∨ ∃ e, t = .errand e ∧ e.Abstains

theorem Change.spent (c : Change id r ev t d t' r') (h : t.Spent) : t'.Spent ∧ r.Spares r' := by
  rcases h with ho | ⟨e, rfl, ha⟩
  · obtain ⟨ho', rfl⟩ := c.of_isOver ho
    exact ⟨.inl ho', .refl _⟩
  · cases c with
    | errand m =>
      obtain ⟨ha', hr⟩ := m.abstains ha
      exact ⟨.inr ⟨_, rfl, ha'⟩, hr⟩
    | kill =>
      obtain ⟨ha', hr⟩ := ha.kill id r
      exact ⟨.inr ⟨_, rfl, ha'⟩, hr⟩
    | letGo =>
      obtain ⟨ha', hr⟩ := ha.letGo r
      exact ⟨.inr ⟨_, rfl, ha'⟩, hr⟩

end Task

namespace Hub

variable {h h' : Hub} {ev : Event} {entry : Option Entry} {id : TaskId} {t : Task}

theorem Result.task {P : Task → Prop} (hr : h.Result ev entry h') (ht : h.tasks[id]? = some t)
    (change : ∀ {d t' r'}, Task.Change id h.resources ev t d t' r' → P t') (keep : P t) :
    ∃ t', h'.tasks[id]? = some t' ∧ P t' := by
  cases hr with
  | spawn =>
    obtain ⟨hlt, -⟩ := List.getElem?_eq_some_iff.mp ht
    exact ⟨t, (List.getElem?_append_left hlt).trans ht, keep⟩
  | elapse | nothing => exact ⟨t, ht, keep⟩
  | @change _ i u u' d r' hu hc =>
    obtain ⟨hlt, -⟩ := List.getElem?_eq_some_iff.mp ht
    by_cases hi : i = id
    · subst hi
      obtain rfl := Option.some.inj (hu.symm.trans ht)
      exact ⟨u', by simp [put, hlt], change hc⟩
    · exact ⟨t, by simpa [put, hi] using ht, keep⟩

theorem isOver_of_getElem? (ht : h.tasks[id]? = some t) : h.isOver id = t.isOver := by
  simp [isOver, ht]

theorem Result.isOver (hr : h.Result ev entry h') (ht : h.tasks[id]? = some t)
    (ho : t.isOver = true) : ∃ t', h'.tasks[id]? = some t' ∧ t'.isOver = true :=
  hr.task ht (fun c => (c.of_isOver ho).1) ho

theorem isOver_run (ht : h.tasks[id]? = some t) (ho : t.isOver = true) (evs : List Event) :
    ∃ t', (h.run evs).tasks[id]? = some t' ∧ t'.isOver = true := by
  induction evs using List.reverseRecOn with
  | nil => exact ⟨t, ht, ho⟩
  | append_singleton evs ev ih =>
    obtain ⟨t', ht', ho'⟩ := ih
    rw [run_concat]
    exact (next_result _ ev).isOver ht' ho'

theorem resources_next_of_isOver (ht : h.tasks[id]? = some t) (ho : t.isOver = true)
    (he : ev.task? = some id) : (h.next ev).resources = h.resources := by
  have hr := h.next_result ev
  generalize h.next ev = h', h.part? ev = entry at hr ⊢
  cases hr with
  | spawn | elapse => cases he
  | nothing => rfl
  | @change _ i u u' d r' hu hc =>
    obtain rfl : i = id := by cases hc <;> exact Option.some.inj he
    obtain rfl := Option.some.inj (hu.symm.trans ht)
    exact (hc.of_isOver ho).2

/-- Where nothing more comes from any task, no event brings a record into the log. -/
theorem Result.spares (hr : h.Result ev entry h')
    (hs : ∀ (id : TaskId) (t : Task), h.tasks[id]? = some t → t.Spent) :
    h.resources.Spares h'.resources := by
  cases hr with
  | spawn | elapse | nothing => exact ⟨.inl rfl, rfl⟩
  | change ht hc => exact (hc.spent (hs _ _ ht)).2

/-- Unless it is ended, the errand that clears the store goes on until it has done so. -/
theorem next_clears {e : Errand} (ht : h.tasks[id]? = some (.errand e))
    (hc : e.Clears h.resources.store) (hk : ev ≠ .kill id)
    (hs : ∀ (id : TaskId) (t : Task), h.tasks[id]? = some t → t.Spent) :
    ∃ e', (h.next ev).tasks[id]? = some (.errand e') ∧ e'.Clears (h.next ev).resources.store := by
  obtain ⟨hlt, -⟩ := List.getElem?_eq_some_iff.mp ht
  by_cases hev : ev = .step id
  · subst hev
    cases hstep : e.step? id h.resources with
    | none => exact ⟨e, by simpa [next, step?, ht, Task.step?, hstep] using hc⟩
    | some x =>
      have hn : h.next (.step id) = h.put id (.errand x.1, x.2) := by
        simp [next, step?, ht, Task.step?, hstep]
      rw [hn]
      exact ⟨x.1, by simp [put, hlt], hc.step? hstep⟩
  · have hr := h.next_result ev
    have hspares := hr.spares hs
    generalize h.next ev = h', h.part? ev = entry at hr hspares ⊢
    have hkeep : ∃ t', h'.tasks[id]? = some t' ∧ t' = .errand e := by
      refine hr.task ht (fun c => ?_) rfl
      cases c with
      | errand => exact absurd rfl hev
      | kill => exact absurd rfl hk
      | letGo =>
        rcases hc.stage with hst | hst | ⟨hst, -⟩ <;> simp [Errand.letGo, hst]
    obtain ⟨t', ht', rfl⟩ := hkeep
    exact ⟨e, ht', hc.congr hspares⟩

end Hub

end CommandLog
