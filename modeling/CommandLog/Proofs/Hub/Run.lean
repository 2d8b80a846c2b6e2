import CommandLog.Proofs.Hub.Change

/-! # Runs of a hub

A run begins without tasks and with a free lock, and every task that joins it has not begun. Its
history lists the deeds in the order in which they were done, its grants the tasks in the order in
which they obtained the lock. In every state of a run the lock serves the tasks in one line.
-/

namespace CommandLog

open FairLock

structure Session.Fresh (s : Session) : Prop where
  reading : s.stage = .reading
  reader : ∃ initial limit, s.reader = .ofInitial initial limit
  sent : s.wire.sent = []
  shutdowns : s.wire.shutdowns = 0

def Session.opened (bs : Bytes) : Session where
  wire := { arrivals := [.chunk bs] }
  reader := .ofInitial LineReader.defaultInitial none

theorem Session.opened_fresh (bs : Bytes) : (opened bs).Fresh where
  reading := rfl
  reader := ⟨_, _, rfl⟩
  sent := rfl
  shutdowns := rfl

def Task.Fresh : Task → Prop
  | session s => s.Fresh
  | errand e => e.stage = .fresh
  | ticker t => t.stage = .waiting ∨ t.stage = .killed

theorem Task.Fresh.stake {t : Task} (h : t.Fresh) : t.stake = .out := by
  cases t with
  | session s => simp [Task.stake, Session.stake, Session.Fresh.reading h]
  | errand e =>
    have h : e.stage = .fresh := h
    simp [Task.stake, Errand.stake, h]
  | ticker t =>
    have h : t.stage = .waiting ∨ t.stage = .killed := h
    rcases h with h | h <;> simp [Task.stake, Ticker.stake, h]

namespace Hub

variable {h h' : Hub} {ev : Event} {evs : List Event} {id : TaskId} {t : Task}

/-- A task that an event adds has not begun. -/
def Event.Proper : Event → Prop
  | spawn t => t.Fresh
  | _ => True

structure Starts (h : Hub) : Prop where
  tasks : h.tasks = []
  lock : h.resources.lock = {}
  store : h.resources.store.Sound

def idle (capacity : Nat) : Hub where
  resources := { store := .empty capacity, timeout := .ofSeconds 5, dial := fun _ => ⟨0, 0, 0⟩ }

theorem idle_starts {capacity : Nat} (hc : 0 < capacity) : (idle capacity).Starts where
  tasks := rfl
  lock := rfl
  store := ⟨[], Store.empty_holds hc⟩

def history (h : Hub) : List Event → List Entry
  | [] => []
  | ev :: evs => (h.part? ev).toList ++ (h.next ev).history evs

def grant? (h : Hub) (ev : Event) : Option TaskId :=
  let holder := (h.next ev).resources.lock.holder
  if holder = h.resources.lock.holder then none else holder

def grants (h : Hub) : List Event → List TaskId
  | [] => []
  | ev :: evs => (h.grant? ev).toList ++ (h.next ev).grants evs

theorem run_concat (h : Hub) (evs : List Event) (ev : Event) :
    h.run (evs ++ [ev]) = (h.run evs).next ev := by
  simp [run]

theorem run_append (h : Hub) (evs evs' : List Event) :
    h.run (evs ++ evs') = (h.run evs).run evs' := by
  simp [run]

theorem history_concat (h : Hub) (evs : List Event) (ev : Event) :
    h.history (evs ++ [ev]) = h.history evs ++ ((h.run evs).part? ev).toList := by
  induction evs generalizing h with
  | nil => simp [history, run]
  | cons ev' evs ih => simp [history, ih, run]

theorem grants_concat (h : Hub) (evs : List Event) (ev : Event) :
    h.grants (evs ++ [ev]) = h.grants evs ++ ((h.run evs).grant? ev).toList := by
  induction evs generalizing h with
  | nil => simp [grants, run]
  | cons ev' evs ih => simp [grants, ih, run]

theorem ledger_of_part? {e : Entry} (he : h.part? ev = some e) :
    (h.next ev).resources.ledger = (e.deed.act h.resources).2.ledger := by
  rw [ledger_next, he]
  rfl

theorem ledger_of_part?_eq_none (he : h.part? ev = none) :
    (h.next ev).resources.ledger = h.resources.ledger := by
  rw [ledger_next, he]
  rfl

/-- What every deed keeps true of the ledger stays true of it in a run. -/
theorem run_ledger {P : Ledger → Prop}
    (hact : ∀ (x : Deed) (r : Resources), P r.ledger → P (x.act r).2.ledger)
    (hp : P h.resources.ledger) (evs : List Event) : P (h.run evs).resources.ledger := by
  induction evs using List.reverseRecOn with
  | nil => exact hp
  | append_singleton evs ev ih =>
    rw [run_concat]
    cases he : (h.run evs).part? ev with
    | none => exact ledger_of_part?_eq_none he ▸ ih
    | some e => exact ledger_of_part? he ▸ hact e.deed _ ih

theorem sound_run (hs : h.resources.store.Sound) (evs : List Event) :
    (h.run evs).resources.store.Sound :=
  run_ledger (P := fun l => l.store.Sound) (fun x _ hr => x.sound_act hr) hs evs

/-- What is said of the deeds of a run holds of each of them, in the state in which it is done. -/
def Throughout (P : Resources → Deed → Prop) (h : Hub) : List Event → Prop
  | [] => True
  | ev :: evs => (∀ e ∈ h.part? ev, P h.resources e.deed) ∧ (h.next ev).Throughout P evs

instance decidableThroughout {P : Resources → Deed → Prop} [∀ r x, Decidable (P r x)] :
    ∀ (h : Hub) (evs : List Event), Decidable (h.Throughout P evs)
  | _, [] => .isTrue trivial
  | h, ev :: evs =>
    have : Decidable ((h.next ev).Throughout P evs) := decidableThroughout (h.next ev) evs
    inferInstanceAs (Decidable (_ ∧ _))

theorem throughout_concat {P : Resources → Deed → Prop} : h.Throughout P (evs ++ [ev]) ↔
    h.Throughout P evs ∧ ∀ e ∈ (h.run evs).part? ev, P (h.run evs).resources e.deed := by
  induction evs generalizing h with
  | nil => simp [Throughout, run]
  | cons ev' evs ih => simp [Throughout, run, ih, and_assoc]

/-- What the events of a run yield, one after the other. -/
def along {α : Type} (f : Hub → Event → List α) (h : Hub) : List Event → List α
  | [] => []
  | ev :: evs => f h ev ++ along f (h.next ev) evs

theorem along_append {α : Type} (f : Hub → Event → List α) (h : Hub) (evs evs' : List Event) :
    along f h (evs ++ evs') = along f h evs ++ along f (h.run evs) evs' := by
  induction evs generalizing h with
  | nil => rfl
  | cons ev evs ih =>
    rw [List.cons_append, along, along, ih, List.append_assoc]
    rfl

theorem along_concat {α : Type} (f : Hub → Event → List α) (h : Hub) (evs : List Event)
    (ev : Event) : along f h (evs ++ [ev]) = along f h evs ++ f (h.run evs) ev := by
  rw [along_append, along, along, List.append_nil]

theorem mem_history {e : Entry} : e ∈ h.history evs ↔
    ∃ earlier ev later, evs = earlier ++ ev :: later ∧ (h.run earlier).part? ev = some e := by
  induction evs generalizing h with
  | nil => simp [history]
  | cons ev evs ih =>
    simp only [history, List.mem_append, Option.mem_toList, ih]
    constructor
    · rintro (he | ⟨earlier, ev', later, rfl, he⟩)
      · exact ⟨[], ev, evs, rfl, he⟩
      · exact ⟨ev :: earlier, ev', later, rfl, he⟩
    · rintro ⟨_ | ⟨ev', earlier⟩, x, later, heq, he⟩
      · obtain ⟨rfl, rfl⟩ := List.cons.inj heq
        exact .inl he
      · obtain ⟨rfl, rfl⟩ := List.cons.inj heq
        exact .inr ⟨earlier, x, later, rfl, he⟩

theorem forall_split_concat {α : Type*} {P : List α → α → Prop} {xs : List α} {y : α} :
    (∀ earlier x later, xs ++ [y] = earlier ++ x :: later → P earlier x) ↔
      (∀ earlier x later, xs = earlier ++ x :: later → P earlier x) ∧ P xs y := by
  constructor
  · intro h
    refine ⟨?_, h xs y [] rfl⟩
    rintro earlier x later rfl
    exact h earlier x (later ++ [y]) (by simp)
  · rintro ⟨h, hy⟩ earlier x later he
    rcases List.eq_nil_or_concat later with rfl | ⟨later, z, rfl⟩
    · obtain ⟨rfl, ⟨⟩⟩ := List.append_inj' he rfl
      exact hy
    · rw [List.concat_eq_append, ← List.cons_append, ← List.append_assoc] at he
      exact h earlier x later (List.append_inj' he rfl).1

/-- What holds at the start and is kept by every proper event holds after every run. -/
theorem run_induction {P : List Event → Prop} (start : P [])
    (step : ∀ evs ev, (∀ ev ∈ evs, ev.Proper) → ev.Proper → P evs → P (evs ++ [ev]))
    {evs : List Event}
    (hp : ∀ ev ∈ evs, ev.Proper) : P evs := by
  induction evs using List.reverseRecOn with
  | nil => exact start
  | append_singleton evs ev ih =>
    have hp' : ∀ ev ∈ evs, ev.Proper := fun ev hev => hp ev (by simp [hev])
    exact step evs ev hp' (hp ev (by simp)) (ih hp')

theorem elim_put {α : Type} (ht : h.tasks[id]? = some t) (t' : Task) (r' : Resources) (a : α)
    (f : Task → α) : (fun i => (h.put id (t', r')).tasks[i]?.elim a f) =
      Function.update (fun i => h.tasks[i]?.elim a f) id (f t') := by
  obtain ⟨hlt, -⟩ := List.getElem?_eq_some_iff.mp ht
  funext i
  by_cases hi : i = id
  · subst hi; simp [put, hlt]
  · simp [put, hi, Ne.symm hi]

theorem elim_spawn {α : Type} {a : α} {f : Task → α} (ht : f t = a) (ts : List Task) :
    (fun i : TaskId => (ts ++ [t])[i]?.elim a f) = fun i => ts[i]?.elim a f := by
  funext i
  rcases Nat.lt_trichotomy i ts.length with hi | rfl | hi
  · rw [List.getElem?_append_left hi]
  · simp [ht]
  · rw [List.getElem?_eq_none (by simp; omega), List.getElem?_eq_none hi.le]

theorem stake_put (ht : h.tasks[id]? = some t) (t' : Task) (r' : Resources) :
    (h.put id (t', r')).stake = Function.update h.stake id t'.stake :=
  elim_put ht t' r' Stake.out Task.stake

theorem stake_spawn (ht : t.stake = .out) :
    stake { h with tasks := h.tasks ++ [t] } = h.stake :=
  elim_spawn ht h.tasks

theorem Result.serves {entry : Option Entry} (hr : h.Result ev entry h') (hp : ev.Proper)
    (hs : h.resources.lock.Serves h.stake) : h'.resources.lock.Serves h'.stake := by
  cases hr with
  | spawn t => rwa [stake_spawn (Task.Fresh.stake hp)]
  | elapse | nothing => exact hs
  | @change _ id t t' d r' ht hc =>
    rw [stake_put ht]
    have hk : h.stake id = t.stake := by simp [stake, ht]
    exact hs.turn (hk ▸ hc.turn)

theorem serves_run (hs : h.resources.lock.Serves h.stake) (hp : ∀ ev ∈ evs, ev.Proper) :
    (h.run evs).resources.lock.Serves (h.run evs).stake := by
  refine run_induction (P := fun evs => (h.run evs).resources.lock.Serves (h.run evs).stake)
    hs (fun evs ev _ hp ih => ?_) hp
  rw [run_concat]
  exact (next_result _ ev).serves hp ih

/-- In every state of a run the lock and the tasks agree on who has it and who waits for it. -/
theorem run_serves (hs : h.Starts) (hp : ∀ ev ∈ evs, ev.Proper) :
    (h.run evs).resources.lock.Serves (h.run evs).stake := by
  have hk : h.stake = fun _ => .out := by
    funext i
    simp [stake, hs.tasks]
  exact serves_run (by rw [hk, hs.lock]; exact serves_free) hp

/-- What holds of every task that has not begun and is kept by every change holds of all tasks. -/
theorem run_tasks {P : Task → Prop} (hs : h.Starts) (hp : ∀ ev ∈ evs, ev.Proper)
    (fresh : ∀ t, .spawn t ∈ evs → t.Fresh → P t)
    (change : ∀ {id r ev t d t' r'}, Task.Change id r ev t d t' r' → P t → P t')
    (ht : (h.run evs).tasks[id]? = some t) : P t := by
  refine run_induction (P := fun evs => (∀ t, .spawn t ∈ evs → t.Fresh → P t) →
    ∀ (id : TaskId) (t : Task), (h.run evs).tasks[id]? = some t → P t)
    ?_ (fun evs ev _ hev ih fresh id t ht => ?_) hp fresh id t ht
  · intro _ id t ht
    simp [run, hs.tasks] at ht
  · have ih := ih fun t hm => fresh t (List.mem_append_left _ hm)
    rw [run_concat] at ht
    have hr := (h.run evs).next_result ev
    generalize (h.run evs).next ev = h', (h.run evs).part? ev = entry at hr ht
    cases hr with
    | spawn u =>
      rcases task_spawn ht with ⟨-, rfl⟩ | ⟨-, ht⟩
      · exact fresh t (by simp) hev
      · exact ih id t ht
    | elapse | nothing => exact ih id t ht
    | change ht' hc =>
      rcases task_put ht with ⟨-, rfl⟩ | ⟨-, ht⟩
      · exact change hc (ih _ _ ht')
      · exact ih id t ht

end Hub

end CommandLog
