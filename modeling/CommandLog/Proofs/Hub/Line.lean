import CommandLog.Proofs.Hub.Run

/-! # The line for the lock

Whoever has the lock of the store or waits for it is in the middle of an operation: an operation
that is done, has failed, has waited too long or was ended stands in the line no more. A task that
asks for the lock joins the line at its end, and nobody gets the lock before those ahead of it have
left the line. A session shuts its stream only when it is out of the line.
-/

namespace CommandLog

open FairLock

namespace FairLock

variable {l l' : FairLock} {id i j : TaskId} {stake : TaskId → Stake} {k' : Stake}

def Ahead (l : FairLock) (j i : TaskId) : Prop :=
  [j, i].Sublist l.line

/-- A turn leaves the line as it is, adds the task at the end or takes it out. -/
theorem Serves.line_turn (h : l.Serves stake) (ht : Turn id l (stake id) l' k') :
    l'.line = l.line ∨ id ∉ l.line ∧ l'.line = l.line ++ [id] ∨
      l'.line = l.line.filter (· ≠ id) := by
  generalize hk : stake id = k at ht
  cases ht with
  | keep | enter => exact .inl rfl
  | ask =>
    have hout : id ∉ l.line := by
      rw [h.mem_line, hk]
      exact not_not.mpr rfl
    exact .inr (.inl ⟨hout, h.line_request⟩)
  | release hr =>
    rw [h.release_eq_withdraw (hk ▸ hr)]
    exact .inr (.inr h.line_withdraw)
  | withdraw => exact .inr (.inr h.line_withdraw)

theorem Serves.line_of_joins (h : l.Serves stake) (ht : Turn id l (stake id) l' k')
    (hi : i ∉ l.line) (hi' : i ∈ l'.line) : l'.line = l.line ++ [i] := by
  rcases h.line_turn ht with he | ⟨-, he⟩ | he
  · exact absurd (he ▸ hi') hi
  · rw [he, List.mem_append, List.mem_singleton] at hi'
    obtain rfl := hi'.resolve_left hi
    exact he
  · rw [he] at hi'
    exact absurd (List.mem_of_mem_filter hi') hi

/-- Nobody gets ahead of a task that stands in the line. -/
theorem Serves.ahead_of_turn (h : l.Serves stake) (ht : Turn id l (stake id) l' k')
    (hi : i ∈ l.line) (ha : l'.Ahead j i) : l.Ahead j i := by
  unfold Ahead at ha ⊢
  rcases h.line_turn ht with he | ⟨hid, he⟩ | he
  · rwa [he] at ha
  · rw [he, List.sublist_append_iff] at ha
    obtain ⟨front, back, heq, hfront, hback⟩ := ha
    rcases List.sublist_singleton.mp hback with rfl | rfl
    · rwa [heq, List.append_nil]
    · -- the task that has just joined stands behind everyone else
      have heq : [j] ++ [i] = front ++ [id] := heq
      obtain ⟨-, hlast⟩ := List.append_inj' heq rfl
      obtain rfl := List.singleton_inj.mp hlast
      exact absurd hi hid
  · rw [he] at ha
    exact ha.trans List.filter_sublist

theorem ahead_of_holder (hh : l.holder = some j) (hi : i ∈ l.line) : j = i ∨ l.Ahead j i := by
  rw [line, hh, Option.toList_some, List.singleton_append, List.mem_cons] at hi
  rcases hi with rfl | hi
  · exact .inl rfl
  · refine .inr ?_
    rw [Ahead, line, hh]
    exact (List.singleton_sublist.mpr hi).cons_cons j

end FairLock

/-- The errand has a result or was ended. -/
def Errand.Settled (e : Errand) : Prop :=
  (∃ result, e.stage = .finished result) ∨ e.stage = .killed

namespace Session

variable {s s' : Session} {id : TaskId} {r r' : Resources} {d : Option Deed}

def Settled (s : Session) : Prop :=
  (∃ result, s.stage = .closing result ∨ s.stage = .closed result) ∨ s.stage = .killed

theorem Move.settled_of_shutdowns (m : s.Move id r d s' r')
    (h : s'.wire.shutdowns ≠ s.wire.shutdowns) : s.Settled := by
  cases m with
  | close hs => exact .inl ⟨_, .inl hs⟩
  | _ => exact absurd rfl h

theorem wire_kill (s : Session) (id : TaskId) (r : Resources) :
    (s.kill id r).1.wire = s.wire := by
  unfold kill
  split <;> rfl

end Session

namespace Task

variable {ev : Hub.Event} {t t' : Task} {s s' : Session} {id : TaskId} {r r' : Resources}
  {d : Option Deed}

/-- No operation of the task is under way: it has a result, was ended or has not begun. -/
def Settled : Task → Prop
  | session s => s.Settled
  | errand e => e.Settled
  | ticker t => ∀ e, t.stage = .ticking e → e.Settled

theorem settled_of_isOver (h : t.isOver = true) : t.Settled := by
  cases t with
  | session s =>
    unfold isOver at h
    dsimp only at h
    split at h
    case h_1 hs => exact .inl ⟨_, .inr hs⟩
    case h_2 hs => exact .inr hs
    case h_3 => cases h
  | errand e =>
    unfold isOver at h
    dsimp only at h
    split at h
    case h_1 hs => exact .inl ⟨_, hs⟩
    case h_2 hs => exact .inr hs
    case h_3 => cases h
  | ticker t =>
    intro e he
    simp [isOver, he] at h

theorem Settled.stake (h : t.Settled) : t.stake = .out := by
  cases t with
  | session s =>
    rcases h with ⟨result, hs | hs⟩ | hs <;> simp [Task.stake, Session.stake, hs]
  | errand e =>
    rcases h with ⟨result, hs⟩ | hs <;> simp [Task.stake, Errand.stake, hs]
  | ticker t =>
    cases hs : t.stage with
    | ticking e =>
      rcases h e hs with ⟨result, he⟩ | he <;> simp [Task.stake, Ticker.stake, Errand.stake, hs, he]
    | _ => simp [Task.stake, Ticker.stake, hs]

theorem Change.settled_of_shutdowns (c : Change id r ev (.session s) d (.session s') r')
    (h : s'.wire.shutdowns ≠ s.wire.shutdowns) : s.Settled := by
  generalize ht : Task.session s = t, ht' : Task.session s' = t' at c
  cases c with
  | session m =>
    obtain rfl := Task.session.inj ht
    obtain rfl := Task.session.inj ht'
    exact m.settled_of_shutdowns h
  | kill =>
    subst ht
    have he : s' = (s.kill id r).1 := Task.session.inj ht'
    exact absurd (by rw [he, s.wire_kill]) h
  | feed | allow =>
    obtain rfl := Task.session.inj ht
    obtain rfl := Task.session.inj ht'
    exact absurd rfl h
  | errand | ticker | fire | letGo | warn => cases ht

end Task

namespace Hub

variable {h h' : Hub} {ev : Event} {evs later : List Event} {entry : Option Entry}
  {id i j : TaskId}

theorem Result.line_of_joins (hr : h.Result ev entry h')
    (hs : h.resources.lock.Serves h.stake) (hi : i ∉ h.resources.lock.line)
    (hi' : i ∈ h'.resources.lock.line) :
    h'.resources.lock.line = h.resources.lock.line ++ [i] := by
  cases hr with
  | spawn | elapse | nothing => exact absurd hi' hi
  | @change _ id t t' d r' ht hc =>
    have hk : h.stake id = t.stake := by simp [stake, ht]
    exact hs.line_of_joins (hk ▸ hc.turn) hi hi'

theorem Result.ahead (hr : h.Result ev entry h') (hs : h.resources.lock.Serves h.stake)
    (hi : i ∈ h.resources.lock.line) (ha : h'.resources.lock.Ahead j i) :
    h.resources.lock.Ahead j i := by
  cases hr with
  | spawn | elapse | nothing => exact ha
  | @change _ id t t' d r' ht hc =>
    have hk : h.stake id = t.stake := by simp [stake, ht]
    exact hs.ahead_of_turn (hk ▸ hc.turn) hi ha

def Stands (h : Hub) (i : TaskId) (evs : List Event) : Prop :=
  ∀ part, part <+: evs → i ∈ (h.run part).resources.lock.line

theorem Stands.of_concat (hi : h.Stands i (evs ++ [ev])) : h.Stands i evs :=
  fun part hp => hi part (hp.trans (List.prefix_append ..))

/-- Whoever is ahead of a task that stands in the line has been so from the start. -/
theorem Stands.ahead (hi : h.Stands i evs) (hs : h.resources.lock.Serves h.stake)
    (hp : ∀ ev ∈ evs, ev.Proper) (ha : (h.run evs).resources.lock.Ahead j i) :
    h.resources.lock.Ahead j i := by
  induction evs using List.reverseRecOn with
  | nil => exact ha
  | append_singleton evs ev ih =>
    have hp' : ∀ ev ∈ evs, ev.Proper := fun ev hev => hp ev (by simp [hev])
    rw [run_concat] at ha
    have hin : i ∈ (h.run evs).resources.lock.line := hi evs (List.prefix_append ..)
    exact ih hi.of_concat hp' ((next_result _ ev).ahead (serves_run hs hp') hin ha)

/-- While a task stands in the line, the lock goes to it or to those ahead of it. -/
theorem Stands.grants (hi : h.Stands i evs) (hs : h.resources.lock.Serves h.stake)
    (hp : ∀ ev ∈ evs, ev.Proper) (hj : j ∈ h.grants evs) :
    j = i ∨ h.resources.lock.Ahead j i := by
  induction evs using List.reverseRecOn with
  | nil => cases hj
  | append_singleton evs ev ih =>
    have hp' : ∀ ev ∈ evs, ev.Proper := fun ev hev => hp ev (by simp [hev])
    rw [grants_concat, List.mem_append, Option.mem_toList] at hj
    rcases hj with hj | hj
    · exact ih hi.of_concat hp' hj
    · have hholder : (h.run (evs ++ [ev])).resources.lock.holder = some j := by
        rw [run_concat]
        unfold grant? at hj
        dsimp only at hj
        split at hj
        · cases hj
        · exact hj
      exact (ahead_of_holder hholder (hi _ List.prefix_rfl)).imp_right (hi.ahead hs hp)

structure Orderly (h : Hub) (evs : List Event) : Prop where
  /-- A task goes on with the lock in hand only while it holds it, so no other one does. -/
  holder : ∀ id, (h.run evs).stake id = .inside →
    (h.run evs).resources.lock.holder = some id
  nodup : (h.run evs).resources.lock.line.Nodup
  /-- Whoever holds the lock or waits for it is in the middle of an operation. -/
  alive : ∀ id ∈ (h.run evs).resources.lock.line, ∃ t, (h.run evs).tasks[id]? = some t ∧
    t.isOver = false ∧ ¬ t.Settled ∧ t.stake ≠ .out
  free : (h.run evs).resources.lock.isFree = true →
    (h.run evs).resources.lock.waiters = [] ∧
      ∀ (id : TaskId) (t : Task), (h.run evs).tasks[id]? = some t → t.stake = .out
  joins : ∀ earlier ev later i, evs = earlier ++ ev :: later →
    i ∉ (h.run earlier).resources.lock.line →
    i ∈ (h.run (earlier ++ [ev])).resources.lock.line →
    (h.run (earlier ++ [ev])).resources.lock.line = (h.run earlier).resources.lock.line ++ [i]
  order : ∀ earlier part later i, evs = earlier ++ (part ++ later) →
    (h.run earlier).Stands i part →
    ∀ j ∈ (h.run earlier).grants part, j = i ∨ (h.run earlier).resources.lock.Ahead j i
  shutdown : ∀ earlier ev later (id : TaskId) s s', evs = earlier ++ ev :: later →
    (h.run earlier).tasks[id]? = some (.session s) →
    (h.run (earlier ++ [ev])).tasks[id]? = some (.session s') →
    s'.wire.shutdowns ≠ s.wire.shutdowns → id ∉ (h.run earlier).resources.lock.line

theorem Result.settled_of_shutdowns {s s' : Session} (hr : h.Result ev entry h')
    (hs : h.tasks[id]? = some (.session s)) (hs' : h'.tasks[id]? = some (.session s'))
    (hne : s'.wire.shutdowns ≠ s.wire.shutdowns) : s.Settled := by
  have hsame : ∀ {t : Task}, t = .session s' → h.tasks[id]? = some t → s.Settled := by
    rintro _ rfl ht
    obtain rfl := Task.session.inj (Option.some.inj (hs.symm.trans ht))
    exact absurd rfl hne
  cases hr with
  | spawn u =>
    rcases task_spawn hs' with ⟨rfl, -⟩ | ⟨-, ht⟩
    · simp at hs
    · exact hsame rfl ht
  | elapse | nothing => exact hsame rfl hs'
  | change ht hc =>
    rcases task_put hs' with ⟨rfl, rfl⟩ | ⟨-, ht'⟩
    · obtain rfl := Option.some.inj (hs.symm.trans ht)
      exact hc.settled_of_shutdowns hne
    · exact hsame rfl ht'

/-- In every state of a run the line for the lock is in order. -/
theorem run_orderly (hs : h.Starts) (hp : ∀ ev ∈ evs, ev.Proper) : h.Orderly evs := by
  have hserves := run_serves hs hp
  have hpart : ∀ {earlier later : List Event}, evs = earlier ++ later →
      (h.run earlier).resources.lock.Serves (h.run earlier).stake := by
    rintro earlier later rfl
    exact run_serves hs fun ev hm => hp ev (List.mem_append_left _ hm)
  have hout : ∀ {earlier later : List Event} {id : TaskId} {t : Task}, evs = earlier ++ later →
      (h.run earlier).tasks[id]? = some t → t.stake = .out →
      id ∉ (h.run earlier).resources.lock.line := by
    intro earlier later id t he ht hk
    rw [(hpart he).mem_line, stake, ht]
    exact not_not.mpr hk
  refine
    { holder := hserves.inside
      nodup := hserves.nodup
      alive := ?_
      free := ?_
      joins := ?_
      order := ?_
      shutdown := ?_ }
  · intro id hid
    have hk := (hserves.mem_line id).mp hid
    unfold stake at hk
    cases ht : (h.run evs).tasks[id]? with
    | none => simp [ht] at hk
    | some t =>
      have hk : t.stake ≠ .out := by simpa [ht] using hk
      have hsettled : ¬ t.Settled := fun hst => hk hst.stake
      refine ⟨t, rfl, ?_, hsettled, hk⟩
      exact Bool.eq_false_iff.mpr fun ho => hsettled (Task.settled_of_isOver ho)
  · intro hf
    have hh : (h.run evs).resources.lock.holder = none := Option.isNone_iff_eq_none.mp hf
    refine ⟨hserves.idle hh, fun id t ht => ?_⟩
    by_contra hk
    have hid := (hserves.mem_line id).mpr (by simpa [stake, ht] using hk)
    simp [line, hh, hserves.idle hh] at hid
  · intro earlier ev later i he hi hi'
    rw [run_concat] at hi' ⊢
    exact (next_result _ ev).line_of_joins (hpart he) hi hi'
  · intro earlier part later i he hi j hj
    refine hi.grants (hpart he) (fun ev hm => hp ev ?_) hj
    rw [he]
    exact List.mem_append_right _ (List.mem_append_left _ hm)
  · intro earlier ev later id s s' he ht ht' hne
    rw [run_concat] at ht'
    have hsettled := (next_result _ ev).settled_of_shutdowns ht ht' hne
    exact hout he ht (Task.Settled.stake (t := .session s) hsettled)

/-- Of four tasks in the line for the lock, one is ended while it waits and one waits too long; the
one that has the lock is ended while it replies, and the last one gets it. -/
def crowd : List Event :=
  [.spawn (.session (.opened [97, 10])), .spawn (.session (.opened [98, 10])),
    .spawn (.errand ⟨.count, .fresh⟩), .spawn (.errand ⟨.append ⟨[99, 10]⟩, .fresh⟩), .step 0,
    .step 0, .step 1, .step 1, .step 2, .step 3, .step 0, .step 0, .kill 2, .elapse 5000, .step 1,
    .step 1, .kill 0]

theorem crowd_orderly :
    (idle 2).Starts ∧ (∀ ev ∈ crowd, ev.Proper) ∧ (idle 2).grants crowd = [0, 3] ∧
      ((idle 2).run crowd).resources.lock = ⟨some 3, []⟩ ∧ (idle 2).Orderly crowd := by
  have hs : (idle 2).Starts := idle_starts (by decide)
  have hp : ∀ ev ∈ crowd, ev.Proper := by
    simp [crowd, Event.Proper, Task.Fresh, Session.opened_fresh]
  exact ⟨hs, hp, by decide, by decide, run_orderly hs hp⟩

end Hub

end CommandLog
