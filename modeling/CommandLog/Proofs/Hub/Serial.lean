import CommandLog.Proofs.Device.Assembly
import CommandLog.Proofs.Hub.Report

/-! # Serial order

Whatever the order of steps, a run does to the log what its deeds do one after the other, each with
the effect that it has when nothing interferes and answered as in that serial order. Deeds done with
the lock in hand come in the order in which their tasks obtained it, and every task reports what its
own deeds were answered.
-/

namespace CommandLog

open FairLock

/-- The store after a deed: a line is appended, or all that a write completes, or nothing. -/
def Deed.effect (x : Deed) (r : Resources) : Store :=
  match x with
  | exchange (some (.append record)) | errand (.append record) | errand (.tick record) =>
    (r.store.append record).1
  | errand (.write n data) =>
    r.store.appendAll (((r.device (r.owner n)).pending ++ data).lines.map Record.mk)
  | errand .clear => r.store.clear
  | exchange _ | errand _ => r.store

def Deed.rest (x : Deed) (d : Nat) (r : Resources) : Bytes :=
  match x.writes? d r with
  | some data => ((r.device d).pending ++ data).unfinished
  | none => (r.device d).pending

section Effect

variable {r : Resources} (h : ∀ d, newline ∉ (r.device d).pending)

include h

theorem Deed.store_act_eq_effect (x : Deed) : (x.act r).2.store = x.effect r := by
  rw [store_act]
  cases x with
  | exchange request => rcases request with _ | _ | _ <;> rfl
  | errand op =>
    cases op with
    | write n data =>
      rw [if_neg nofun, records, Device.assemble_eq (h _)]
      rfl
    | _ => rfl

theorem Deed.pending_act_eq_rest {d : Nat} (hd : d < r.devices.length) (x : Deed) :
    ((x.act r).2.device d).pending = x.rest d r := by
  rw [pending_act hd, rest]
  cases x.writes? d r with
  | none => rfl
  | some data => exact congrArg Prod.snd (Device.assemble_eq (h d) data)

end Effect

namespace Hub

variable {h h₀ h' : Hub} {ev : Event} {evs : List Event} {past : List Entry} {entry : Option Entry}
  {id : TaskId}

/-- The log after deeds done one after the other, with nothing in between. -/
def serially (h : Hub) (past : List Entry) : Resources :=
  Deed.carryOut (past.map Entry.deed) h.resources

def own (id : TaskId) (past : List Entry) : Account :=
  (past.filter (·.task = id)).map fun e => (e.deed, e.answer)

/-- The tasks whose deeds needed the lock, in the order of the deeds. -/
def lockOrder (past : List Entry) : List TaskId :=
  (past.filter (·.deed.locks)).map Entry.task

def Answered (h₀ : Hub) (past : List Entry) : Prop :=
  ∀ earlier e later, past = earlier ++ e :: later →
    e.answer = (e.deed.act (h₀.serially earlier)).1

theorem serially_concat (h : Hub) (past : List Entry) (e : Entry) :
    h.serially (past ++ [e]) = (e.deed.act (h.serially past)).2 := by
  simp [serially]

theorem own_change (id : TaskId) (past : List Entry) (r : Resources) (d : Option Deed) :
    own id (past ++ (d.map (.made id r)).toList) = own id past ++ Deed.account r d := by
  cases d with
  | none => simp
  | some d => simp [own, Entry.made, Deed.account]

theorem own_change_of_ne {i : TaskId} (hi : i ≠ id) (past : List Entry) (r : Resources)
    (d : Option Deed) : own i (past ++ (d.map (.made id r)).toList) = own i past := by
  cases d with
  | none => simp
  | some d => simp [own, Entry.made, Ne.symm hi]

theorem mem_own {x : Deed} : (∃ e ∈ past, e.task = id ∧ e.deed = x) ↔
    ∃ answer, (x, answer) ∈ own id past := by
  simp only [own, List.mem_map, List.mem_filter, decide_eq_true_eq, Prod.mk.injEq]
  constructor
  · rintro ⟨e, he, ht, hd⟩
    exact ⟨e.answer, e, ⟨he, ht⟩, hd, rfl⟩
  · rintro ⟨answer, e, ⟨he, ht⟩, hd, -⟩
    exact ⟨e, he, ht, hd⟩

theorem own_eq_nil (hk : ∀ e ∈ past, e.task < id) : own id past = [] := by
  have hf : past.filter (·.task = id) = [] :=
    List.filter_eq_nil_iff.mpr fun e he => by simp [(hk e he).ne]
  rw [own, hf, List.map_nil]

theorem Answered.concat (ha : h₀.Answered past) {e : Entry}
    (he : e.answer = (e.deed.act (h₀.serially past)).1) : h₀.Answered (past ++ [e]) :=
  forall_split_concat.mpr ⟨ha, he⟩

/-- The log and the tasks are as the deeds done so far make them, one after the other. -/
structure Accounted (h₀ : Hub) (past : List Entry) (h : Hub) : Prop where
  ledger : h.resources.ledger = (h₀.serially past).ledger
  answered : h₀.Answered past
  known : ∀ e ∈ past, e.task < h.tasks.length
  reports : ∀ (id : TaskId) (t : Task), h.tasks[id]? = some t →
    t.Reports h.resources.store (own id past)

theorem Accounted.nothing (ha : h₀.Accounted past h) {r : Resources}
    (hl : r.ledger = h.resources.ledger) : h₀.Accounted past { h with resources := r } where
  ledger := hl.trans ha.ledger
  answered := ha.answered
  known := ha.known
  reports id t ht := by
    have hs : r.store = h.resources.store := Resources.store_congr hl
    exact hs ▸ ha.reports id t ht

theorem Accounted.spawn (ha : h₀.Accounted past h) {t : Task} (ht : t.Fresh) :
    h₀.Accounted past { h with tasks := h.tasks ++ [t] } where
  ledger := ha.ledger
  answered := ha.answered
  known e he := by
    rw [List.length_append]
    exact Nat.lt_add_right _ (ha.known e he)
  reports id t' hi := by
    rcases task_spawn hi with ⟨rfl, rfl⟩ | ⟨-, hi⟩
    · rw [own_eq_nil ha.known]
      exact ht.reports _
    · exact ha.reports id t' hi

/-- A change of one task carries the accounts on. Those of the others stay valid, since the store
changes only if none of them has the lock. -/
theorem Accounted.change (ha : h₀.Accounted past h) (hs : h.resources.lock.Serves h.stake)
    {t t' : Task} {d : Option Deed} {r' : Resources} (ht : h.tasks[id]? = some t)
    (hc : Task.Change id h.resources ev t d t' r') :
    h₀.Accounted (past ++ (d.map (.made id h.resources)).toList) (h.put id (t', r')) := by
  obtain ⟨hlt, -⟩ := List.getElem?_eq_some_iff.mp ht
  have hreports : ∀ (i : TaskId) (u : Task), (h.put id (t', r')).tasks[i]? = some u →
      u.Reports r'.store (own i (past ++ (d.map (.made id h.resources)).toList)) := by
    intro i u hu
    rcases task_put hu with ⟨rfl, rfl⟩ | ⟨hi, hu⟩
    · rw [own_change]
      exact hc.reports (ha.reports i t ht)
    · rw [own_change_of_ne hi]
      refine (ha.reports i u hu).congr fun hin => hc.store ?_
      have hin : h.resources.lock.holder = some i := hs.inside i (by simpa [stake, hu] using hin)
      rw [hin]
      exact fun he => hi (Option.some.inj he)
  cases d with
  | none =>
    simp only [Option.map_none, Option.toList_none, List.append_nil] at hreports ⊢
    exact ⟨hc.ledger.trans ha.ledger, ha.answered, by simpa [put] using ha.known, hreports⟩
  | some d =>
    obtain ⟨hanswer, hledger⟩ := d.act_congr ha.ledger
    refine ⟨?_, ha.answered.concat hanswer, ?_, hreports⟩
    · rw [Option.map_some, Option.toList_some, serially_concat]
      exact hc.ledger.trans hledger
    · simpa [put, Entry.made, or_imp, forall_and, hlt] using ha.known

theorem Result.accounted (hr : h.Result ev entry h') (hp : ev.Proper)
    (hs : h.resources.lock.Serves h.stake) (ha : h₀.Accounted past h) :
    h₀.Accounted (past ++ entry.toList) h' := by
  cases hr with
  | spawn t => simpa using ha.spawn hp
  | elapse ms =>
    rw [Option.toList_none, List.append_nil]
    exact ha.nothing rfl
  | nothing => simpa using ha
  | change ht hc => exact ha.change hs ht hc

/-- The deeds done with the lock in hand follow its grants, and the holder that has not acted yet
comes after all of them. -/
structure InOrder (h : Hub) (order grants : List TaskId) : Prop where
  done : order.Sublist grants
  next : ∀ id, h.resources.lock.holder = some id → h.stake id = .asked →
    (order ++ [id]).Sublist grants

theorem InOrder.change {order grants : List TaskId} (ho : h.InOrder order grants)
    (hs : h.resources.lock.Serves h.stake) {t t' : Task} {d : Option Deed} {r' : Resources}
    (ht : h.tasks[id]? = some t) (hc : Task.Change id h.resources ev t d t' r') :
    (h.put id (t', r')).InOrder (order ++ ((d.filter Deed.locks).map fun _ => id).toList)
      (grants ++ (if r'.lock.holder = h.resources.lock.holder then none
        else r'.lock.holder).toList) := by
  have hk : h.stake id = t.stake := by simp [stake, ht]
  cases hl : d.filter Deed.locks with
  | none =>
    -- the order stands; a holder that has not acted is the old one or has just been granted
    simp only [Option.map_none, Option.toList_none, List.append_nil]
    refine ⟨ho.done.trans (List.sublist_append_left _ _), fun i hi ha => ?_⟩
    have hi : r'.lock.holder = some i := hi
    rw [stake_put ht] at ha
    split
    case isTrue he =>
      have hasked : h.stake i = .asked := by
        by_cases hid : i = id
        · subst hid
          rw [Function.update_self] at ha
          exact hs.asked_of_turn (ha ▸ hk ▸ hc.turn) (he ▸ hi)
        · rwa [Function.update_of_ne hid] at ha
      simpa using ho.next i (he ▸ hi) hasked
    case isFalse =>
      rw [hi]
      exact ho.done.append_right [i]
  | some d' =>
    -- the deed comes last in the order, and its task has its grant already
    obtain ⟨rfl, hd⟩ := Option.filter_eq_some_iff.mp hl
    obtain ⟨hh, hasked, hk'⟩ := hc.locks hd
    have hdone := ho.next id hh (hk.trans hasked)
    refine ⟨hdone.trans (List.sublist_append_left _ _), fun i hi ha => ?_⟩
    have hi : r'.lock.holder = some i := hi
    have hid : i ≠ id := by
      rintro rfl
      rw [stake_put ht, Function.update_self] at ha
      exact hk' ha
    rw [hi, hh, if_neg (fun he => hid (Option.some.inj he))]
    exact hdone.append_right [i]

theorem InOrder.congr {order grants : List TaskId} (ho : h.InOrder order grants)
    (hl : h'.resources.lock = h.resources.lock) (hk : h'.stake = h.stake) :
    h'.InOrder order grants :=
  ⟨ho.done, fun id hh ha => ho.next id (hl ▸ hh) (hk ▸ ha)⟩

theorem lockOrder_concat (past : List Entry) (entry : Option Entry) :
    lockOrder (past ++ entry.toList) =
      lockOrder past ++ ((entry.filter (·.deed.locks)).map Entry.task).toList := by
  rw [lockOrder, List.filter_append, List.map_append]
  cases entry with
  | none => rfl
  | some e => cases hd : e.deed.locks <;> simp [lockOrder, hd, Option.filter]

theorem Result.inOrder {grants : List TaskId} (hr : h.Result ev entry h') (hp : ev.Proper)
    (hs : h.resources.lock.Serves h.stake) (ho : h.InOrder (lockOrder past) grants) :
    h'.InOrder (lockOrder past ++ ((entry.filter (·.deed.locks)).map Entry.task).toList)
      (grants ++ (if h'.resources.lock.holder = h.resources.lock.holder then none
        else h'.resources.lock.holder).toList) := by
  cases hr with
  | spawn t =>
    have hk : InOrder { h with tasks := h.tasks ++ [t] } (lockOrder past) grants :=
      ho.congr rfl (stake_spawn (Task.Fresh.stake hp))
    simpa using hk
  | elapse ms =>
    rw [if_pos rfl, Option.filter_none, Option.map_none, Option.toList_none, List.append_nil,
      List.append_nil]
    exact ho.congr rfl rfl
  | nothing => simpa using ho
  | @change _ id t t' d r' ht hc =>
    have he : ((d.map (Entry.made id h.resources)).filter (·.deed.locks)).map Entry.task =
        (d.filter Deed.locks).map fun _ => id := by
      cases d with
      | none => rfl
      | some d => cases hd : d.locks <;> simp [Entry.made, Option.filter, hd]
    rw [he]
    exact ho.change hs ht hc

/-- What a run has done to the log, as a serial order of its deeds. -/
structure Serializes (h : Hub) (evs : List Event) : Prop where
  ledger : (h.run evs).resources.ledger = (h.serially (h.history evs)).ledger
  answered : h.Answered (h.history evs)
  effects : ∀ earlier e later, h.history evs = earlier ++ e :: later →
    (h.serially (earlier ++ [e])).store = e.deed.effect (h.serially earlier)
  pending : ∀ earlier e later d, h.history evs = earlier ++ e :: later →
    d < h.resources.devices.length →
    ((h.serially (earlier ++ [e])).device d).pending = e.deed.rest d (h.serially earlier)
  order : (lockOrder (h.history evs)).Sublist (h.grants evs)
  reports : ∀ (id : TaskId) (t : Task), (h.run evs).tasks[id]? = some t →
    t.Reports (h.run evs).resources.store (own id (h.history evs))
  /-- A session that stored a record is answered with the content right after that, the record
  last. -/
  stored : ∀ earlier e later record, h.history evs = earlier ++ e :: later →
    e.deed = .exchange (some (.append record)) →
    let after := (h.serially (earlier ++ [e])).store
    e.answer = .exchange
        (.ok (.appended (h.serially earlier).store.isFull after.content.length, after.content)) ∧
      ∃ older, after.toList = older ++ [record]

theorem serially_sound (hs : h.Starts) (past : List Entry) : (h.serially past).store.Sound := by
  induction past using List.reverseRecOn with
  | nil => exact hs.store
  | append_singleton past e ih =>
    rw [serially_concat]
    exact e.deed.sound_act ih

theorem serially_partial (hl : ∀ d, newline ∉ (h.resources.device d).pending)
    (past : List Entry) : ∀ d, newline ∉ ((h.serially past).device d).pending := by
  induction past using List.reverseRecOn with
  | nil => exact hl
  | append_singleton past e ih =>
    rw [serially_concat]
    exact Deed.newline_not_mem_pending ih e.deed

theorem length_devices_serially (h : Hub) (past : List Entry) :
    (h.serially past).devices.length = h.resources.devices.length := by
  induction past using List.reverseRecOn with
  | nil => rfl
  | append_singleton past e ih => rw [serially_concat, Deed.length_devices_act, ih]

theorem run_accounted (hs : h.Starts) (hp : ∀ ev ∈ evs, ev.Proper) :
    h.Accounted (h.history evs) (h.run evs) := by
  refine run_induction (P := fun evs => h.Accounted (h.history evs) (h.run evs))
    ?_ (fun evs ev hp hev ih => ?_) hp
  · refine ⟨rfl, fun earlier e later he => by simp [history] at he, by simp [history], ?_⟩
    intro id t ht
    simp [run, hs.tasks] at ht
  · rw [history_concat, run_concat]
    exact (next_result _ ev).accounted hev (run_serves hs hp) ih

theorem run_inOrder (hs : h.Starts) (hp : ∀ ev ∈ evs, ev.Proper) :
    (h.run evs).InOrder (lockOrder (h.history evs)) (h.grants evs) := by
  refine run_induction
    (P := fun evs => (h.run evs).InOrder (lockOrder (h.history evs)) (h.grants evs))
    ?_ (fun evs ev hp hev ih => ?_) hp
  · refine ⟨by simp [history, lockOrder], fun id hh => ?_⟩
    have hn : (h.run []).resources.lock.holder = none := by simp [run, hs.lock]
    rw [hn] at hh
    cases hh
  · rw [history_concat, run_concat, grants_concat, lockOrder_concat]
    exact (next_result _ ev).inOrder hev (run_serves hs hp) ih

/-- Every interleaving of tasks, with waits given up and tasks ended anywhere, has the effect and
the answers of a serial order. -/
theorem run_serializes (hs : h.Starts) (hl : ∀ d, newline ∉ (h.resources.device d).pending)
    (hp : ∀ ev ∈ evs, ev.Proper) : h.Serializes evs where
  ledger := (run_accounted hs hp).ledger
  answered := (run_accounted hs hp).answered
  effects earlier e later _ := by
    rw [serially_concat]
    exact Deed.store_act_eq_effect (serially_partial hl earlier) e.deed
  pending earlier e later d _ hd := by
    rw [serially_concat]
    exact Deed.pending_act_eq_rest (serially_partial hl earlier)
      (hd.trans_eq (length_devices_serially h earlier).symm) e.deed
  order := (run_inOrder hs hp).done
  reports := (run_accounted hs hp).reports
  stored earlier e later record he hd := by
    rw [serially_concat, (run_accounted hs hp).answered earlier e later he, hd]
    exact Deed.act_append (serially_sound hs earlier) record

def desktop : Hub where
  resources := {
    store := .empty 2, timeout := .ofSeconds 5, dial := fun _ => ⟨0, 0, 0⟩,
    devices := [{}], handles := [⟨0, 0⟩] }

/-- Two sessions read their records in turn; the first is ended while it replies. In between a write
completes a line and begins another. -/
def rivals : List Event :=
  [.spawn (.session (.opened [97, 10])), .spawn (.session (.opened [98, 10])),
    .spawn (.errand ⟨.write 0 [99, 10, 100], .fresh⟩), .step 0, .step 1, .step 0, .step 2, .step 2,
    .step 1, .step 1, .step 0, .step 0, .kill 0, .step 2, .step 1, .step 1, .step 1, .step 1,
    .step 1, .step 1]

theorem rivals_serialize :
    desktop.Starts ∧ (∀ d, newline ∉ (desktop.resources.device d).pending) ∧
      (∀ ev ∈ rivals, ev.Proper) ∧ lockOrder (desktop.history rivals) = [0, 2, 1] ∧
      (desktop.run rivals).resources.store.toList = [⟨[99, 10]⟩, ⟨[98, 10]⟩] ∧
      ((desktop.run rivals).resources.device 0).pending = [100] ∧ desktop.Serializes rivals := by
  have hs : desktop.Starts := ⟨rfl, rfl, [], Store.empty_holds (by decide)⟩
  have hl : ∀ d, newline ∉ (desktop.resources.device d).pending := by
    rintro (_ | d)
    · exact List.not_mem_nil
    · exact List.not_mem_nil
  have hp : ∀ ev ∈ rivals, ev.Proper := by
    simp [rivals, Event.Proper, Task.Fresh, Session.opened_fresh]
  exact ⟨hs, hl, hp, by decide, by decide, by decide, run_serializes hs hl hp⟩

end Hub

end CommandLog
