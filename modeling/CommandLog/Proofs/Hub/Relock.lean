import CommandLog.Proofs.Hub.Run

/-! # One step at two sets of locks

What a task does to a lock can be carried over to another task at another lock: it takes the lock in
one place if it takes it in the other, and it leaves related locks behind. Where a map carries over
what a task does at every lock that it meets, the task takes the same step in both places.
-/

namespace CommandLog

variable {f g : FairLock → FairLock} {i j : TaskId} {r : Resources}

/-- The map carries over to a task what another one does to a lock. -/
structure FairLock.Carries (f : FairLock → FairLock) (i j : TaskId) (l : FairLock) : Prop where
  holder : (f l).holder = some j ↔ l.holder = some i
  request : (f l).request j = f (l.request i)
  release : (f l).release = f l.release
  withdraw : (f l).withdraw j = f (l.withdraw i)

namespace FairLock

variable {l : FairLock}

theorem carries_id (i : TaskId) (l : FairLock) : Carries id i i l :=
  ⟨Iff.rfl, rfl, rfl, rfl⟩

def rename (σ : TaskId → TaskId) (l : FairLock) : FairLock where
  holder := l.holder.map σ
  waiters := l.waiters.map σ

theorem line_rename (σ : TaskId → TaskId) (l : FairLock) :
    (l.rename σ).line = l.line.map σ := by
  obtain ⟨holder, waiters⟩ := l
  cases holder <;> simp [rename, line]

theorem rename_rename (σ τ : TaskId → TaskId) (hστ : ∀ i, τ (σ i) = i) (l : FairLock) :
    (l.rename σ).rename τ = l := by
  obtain ⟨holder, waiters⟩ := l
  cases holder <;> simp [rename, hστ, Function.comp_def]

theorem carries_rename {σ : TaskId → TaskId} (hσ : σ.Injective) (i : TaskId) (l : FairLock) :
    Carries (rename σ) i (σ i) l := by
  have hh : (l.rename σ).holder = some (σ i) ↔ l.holder = some i :=
    (Option.map_injective hσ).eq_iff (b := some i)
  have hr : (l.rename σ).release = l.release.rename σ := by
    obtain ⟨holder, waiters⟩ := l
    cases waiters <;> rfl
  refine ⟨hh, ?_, hr, ?_⟩
  · obtain ⟨holder, waiters⟩ := l
    cases holder <;> simp [rename, request]
  · simp only [withdraw, hh, hr]
    split
    · rfl
    · simp [rename, List.filter_map, Function.comp_def, hσ.eq_iff]

theorem withdraw_of_ne (hh : l.holder ≠ some i) :
    l.withdraw i = { l with waiters := l.waiters.filter (· ≠ i) } :=
  if_neg hh

theorem withdraw_withdraw (hh : l.holder ≠ some i) : (l.withdraw i).withdraw i = l.withdraw i := by
  rw [withdraw_of_ne hh, withdraw_of_ne (by exact hh)]
  simp

/-- Where a task only waits, the others do to the lock what they would do if it gave up. -/
theorem carries_withdraw {stake : TaskId → Stake} (hs : l.Serves stake) {x : TaskId}
    (hx : l.holder ≠ some x) (hi : i ≠ x) : Carries (·.withdraw x) i i l := by
  have hw : l.withdraw x = { l with waiters := l.waiters.filter (· ≠ x) } := withdraw_of_ne hx
  have hr : (l.withdraw x).release = l.release.withdraw x := by
    have hnodup : l.waiters.Nodup := (List.nodup_append.mp hs.nodup).2.1
    obtain ⟨holder, waiters⟩ := l
    rw [hw]
    cases waiters with
    | nil => rfl
    | cons w ws =>
      by_cases hwx : w = x
      · -- the lock would go to the one that gives up, and so to the next
        subst hwx
        have hws : ws.filter (· ≠ w) = ws :=
          List.filter_eq_self.mpr fun a ha =>
            decide_eq_true fun he => (List.nodup_cons.mp hnodup).1 (he ▸ ha)
        rw [List.filter_cons_of_neg (by simp), hws]
        simp [release, withdraw]
      · simp [release, withdraw, hwx]
  refine ⟨by rw [hw], ?_, hr, ?_⟩
  · rw [hw]
    obtain ⟨holder, waiters⟩ := l
    cases holder with
    | none => simp [request, withdraw, hi]
    | some j =>
      have hj : j ≠ x := fun he => hx (congrArg some he)
      simp [request, withdraw, hj, hi]
  · by_cases hh : l.holder = some i
    · rw [withdraw, if_pos (by rw [hw]; exact hh), hr, withdraw.eq_def l i, if_pos hh]
    · rw [withdraw_of_ne hh, hw, withdraw_of_ne (by exact hh), withdraw_of_ne (by exact hx),
        List.filter_comm]

end FairLock

namespace Resources

def relock (f g : FairLock → FairLock) (r : Resources) : Resources :=
  { r with lock := f r.lock, devices := r.devices.map fun x => { x with lock := g x.lock } }

structure Carries (f g : FairLock → FairLock) (i j : TaskId) (r : Resources) : Prop where
  store : FairLock.Carries f i j r.lock
  device : ∀ l, FairLock.Carries g i j l

@[simp] theorem relock_id (r : Resources) : r.relock id id = r := by
  simp [relock]

theorem relock_relock {f' g' : FairLock → FairLock} (hf : ∀ l, f' (f l) = l)
    (hg : ∀ l, g' (g l) = l) (r : Resources) : (r.relock f g).relock f' g' = r := by
  simp [relock, hf, hg, Function.comp_def]

@[simp] theorem ledger_relock (f g : FairLock → FairLock) (r : Resources) :
    (r.relock f g).ledger = r.ledger := by
  simp [ledger, relock, Function.comp_def]

theorem relock_request (h : FairLock.Carries f i j r.lock) :
    (r.relock f g).request j = (r.request i).relock f g := by
  simp only [relock, Resources.request, h.request]

theorem relock_release (h : FairLock.Carries f i j r.lock) :
    (r.relock f g).release = r.release.relock f g := by
  simp only [relock, Resources.release, h.release]

theorem relock_withdraw (h : FairLock.Carries f i j r.lock) :
    (r.relock f g).withdraw j = (r.withdraw i).relock f g := by
  simp only [relock, Resources.withdraw, h.withdraw]

theorem relock_transcribe (f g : FairLock → FairLock) (r : Resources) (record : Record) :
    (r.relock f g).transcribe record = (r.transcribe record).relock f g := by
  obtain ⟨store, lock, timeout, tree, transcript, devices, handles, now, dial⟩ := r
  cases transcript with
  | none => rfl
  | some tr =>
    simp only [relock, transcribe]
    cases tr.append tree record <;> rfl

theorem relock_modifyDevice {u v : Device → Device} (d : Nat)
    (huv : ∀ x : Device, v { x with lock := g x.lock } = { u x with lock := g (u x).lock }) :
    (r.relock f g).modifyDevice d v = (r.modifyDevice d u).relock f g := by
  have hm : (r.devices.map fun x => { x with lock := g x.lock }).modify d v =
      (r.devices.modify d u).map fun x => { x with lock := g x.lock } := by
    refine List.ext_getElem? fun n => ?_
    simp only [List.getElem?_modify, List.getElem?_map]
    by_cases hd : d = n <;> cases r.devices[n]? <;> simp [hd, huv]
  simp only [relock, modifyDevice, hm]

theorem holder_device_relock (d : Nat) (h : ∀ l, FairLock.Carries g i j l) :
    ((r.relock f g).device d).lock.holder = some j ↔ (r.device d).lock.holder = some i := by
  simp only [device, relock, List.getD_eq_getElem?_getD, List.getElem?_map]
  cases r.devices[d]? with
  | none => simp
  | some x => exact (h x.lock).holder

end Resources

open Resources

theorem Operation.act_relock (op : Operation) (f g : FairLock → FairLock) (r : Resources) :
    op.act (r.relock f g) = ((op.act r).1, (op.act r).2.relock f g) := by
  cases op with
  | seekTo n d =>
    have hs : (r.relock f g).store = r.store := rfl
    simp only [act, hs]
    split <;> rfl
  | seek n target =>
    have hs : (r.relock f g).store = r.store := rfl
    have hh : (r.relock f g).handle n = r.handle n := rfl
    simp only [act, hs, hh]
    split <;> rfl
  | write n data =>
    have hp : ∀ d, ((r.relock f g).device d).pending = (r.device d).pending := by
      intro d
      rw [pending_device, ledger_relock, pending_device]
    have hh : (r.relock f g).handle n = r.handle n := rfl
    simp only [act, hp, hh]
    generalize Device.assemble (r.device (r.handle n).device).pending data = x
    have hm := relock_modifyDevice (f := f) (g := g)
      (r := { r with store := r.store.appendAll x.1 })
      (u := fun d => { d with pending := x.2 }) (v := fun d => { d with pending := x.2 })
      (r.handle n).device fun _ => rfl
    exact Prod.ext rfl (congrArg (·.setCursor n ((r.handle n).cursor + data.length)) hm)
  | _ => rfl

namespace Session

theorem receive?_relock (s : Session) (h : Carries f g i j r) :
    s.receive? j (r.relock f g) = (s.receive? i r).map fun x => (x.1, x.2.relock f g) := by
  have hq : ∀ (s : Session) request, s.enqueue request j (r.relock f g) =
      ((s.enqueue request i r).1, (s.enqueue request i r).2.relock f g) :=
    fun s request => Prod.ext rfl (relock_request h.store)
  simp only [receive?, hq]
  cases s.reader.poll with
  | frame frame next => rfl
  | failure cause => rfl
  | bytes room next =>
    dsimp only
    generalize s.wire.read room = x
    obtain ⟨reading, w⟩ := x
    cases reading with
    | bytes bs => cases bs <;> rfl
    | failure | pause | wait => rfl

theorem enter_relock (s : Session) (request : Option Command) (h : Carries f g i j r) :
    s.enter request (r.relock f g) =
      ((s.enter request r).1, (s.enter request r).2.relock f g) := by
  rcases request with _ | d | record
  · rfl
  · have hs : (r.relock f g).store = r.store := rfl
    simp only [enter, hs, relock_release h.store]
    split <;> rfl
  · rfl

theorem send?_relock (s : Session) (outcome : Outcome) (rest : Bytes) (h : Carries f g i j r) :
    s.send? outcome rest (r.relock f g) =
      (s.send? outcome rest r).map fun x => (x.1, x.2.relock f g) := by
  simp only [send?, relock_release h.store]
  split
  · rfl
  · generalize s.wire.write rest = x
    obtain ⟨writing, w⟩ := x
    cases writing with
    | taken n => cases n <;> rfl
    | failure | wait => rfl

theorem step?_relock (s : Session) (h : Carries f g i j r) :
    s.step? j (r.relock f g) = (s.step? i r).map fun x => (x.1, x.2.relock f g) := by
  have hh : (r.relock f g).lock.holder = some j ↔ r.lock.holder = some i := h.store.holder
  have hn : (r.relock f g).now = r.now := rfl
  have hs : ∀ r : Resources, (r.relock f g).store = r.store := fun _ => rfl
  unfold step?
  split
  case h_1 => exact s.receive?_relock h
  case h_2 request deadline _ =>
    simp only [hh, hn, relock_withdraw h.store, enter_relock s request h]
    split
    · rfl
    · split <;> rfl
  case h_3 => simp only [relock_transcribe, hs, Option.map_some]
  case h_4 outcome rest _ => exact s.send?_relock outcome rest h
  case h_5 =>
    simp only [relock_release h.store]
    split <;> rfl
  all_goals rfl

theorem kill_relock (s : Session) (h : Carries f g i j r) :
    s.kill j (r.relock f g) = ((s.kill i r).1, (s.kill i r).2.relock f g) := by
  unfold kill
  simp only [relock_withdraw h.store]
  split <;> rfl

theorem deed?_relock (s : Session) (h : Carries f g i j r) :
    s.deed? j (r.relock f g) = s.deed? i r := by
  have hh : (r.relock f g).lock.holder = some j ↔ r.lock.holder = some i := h.store.holder
  simp only [deed?, hh]

end Session

namespace Errand

theorem leaveDevice_relock (e : Errand) (r : Resources) (h : ∀ l, FairLock.Carries g i j l) :
    e.leaveDevice j (r.relock f g) = (e.leaveDevice i r).relock f g := by
  have hd : e.operation.device? (r.relock f g) = e.operation.device? r := by
    cases e.operation <;> rfl
  unfold leaveDevice
  rw [hd]
  split
  · exact relock_modifyDevice _ fun x => by rw [(h x.lock).withdraw]
  · rfl

theorem enter_relock (e : Errand) (h : Carries f g i j r) :
    e.enter j (r.relock f g) = ((e.enter i r).1, (e.enter i r).2.relock f g) := by
  have hact : FairLock.Carries f i j (e.operation.act r).2.lock := by
    rw [Operation.lock_act]
    exact h.store
  unfold enter
  simp only [Operation.act_relock, relock_release hact, leaveDevice_relock e _ h.device]
  generalize e.operation.act r = x
  obtain ⟨result, after⟩ := x
  split <;> rfl

theorem step?_relock (e : Errand) (h : Carries f g i j r) :
    e.step? j (r.relock f g) = (e.step? i r).map fun x => (x.1, x.2.relock f g) := by
  have hh : (r.relock f g).lock.holder = some j ↔ r.lock.holder = some i := h.store.holder
  have hn : (r.relock f g).now = r.now := rfl
  have ht : (r.relock f g).lockTimeout = r.lockTimeout := rfl
  have hd : e.operation.device? (r.relock f g) = e.operation.device? r := by
    cases e.operation <;> rfl
  have hdl : e.operation.deadline? (r.relock f g) = e.operation.deadline? r := by
    cases e.operation <;> rfl
  have hr : ∀ d, (r.relock f g).modifyDevice d (fun x => { x with lock := x.lock.request j }) =
      (r.modifyDevice d fun x => { x with lock := x.lock.request i }).relock f g :=
    fun d => relock_modifyDevice d fun x => by rw [(h.device x.lock).request]
  unfold step?
  simp only [hh, hn, ht, hd, hdl, hr, holder_device_relock _ h.device, relock_request h.store,
    relock_withdraw h.store, leaveDevice_relock e _ h.device, Operation.act_relock,
    enter_relock e h]
  split
  case h_1 => split <;> rfl
  case h_2 =>
    split
    · split
      · split <;> rfl
      · rfl
    · rfl
  case h_3 =>
    split
    · rfl
    · split <;> rfl
  case h_4 record _ _ =>
    have hc : FairLock.Carries f i j (r.transcribe record).lock := by
      rw [lock_transcribe]
      exact h.store
    rw [relock_transcribe, relock_release hc]
    rfl
  all_goals rfl

theorem letGo_relock (e : Errand) (h : Carries f g i j r) :
    e.letGo (r.relock f g) = ((e.letGo r).1, (e.letGo r).2.relock f g) := by
  unfold letGo
  simp only [relock_release h.store]
  split <;> rfl

theorem kill_relock (e : Errand) (h : Carries f g i j r) :
    e.kill j (r.relock f g) = ((e.kill i r).1, (e.kill i r).2.relock f g) := by
  unfold kill
  simp only [relock_withdraw h.store, leaveDevice_relock e _ h.device]
  split <;> rfl

theorem deed?_relock (e : Errand) (h : Carries f g i j r) :
    e.deed? j (r.relock f g) = e.deed? i r := by
  have hh : (r.relock f g).lock.holder = some j ↔ r.lock.holder = some i := h.store.holder
  have hd : e.operation.device? (r.relock f g) = e.operation.device? r := by
    cases e.operation <;> rfl
  simp only [deed?, hh, hd, holder_device_relock _ h.device]

end Errand

namespace Ticker

theorem step?_relock (t : Ticker) (h : Carries f g i j r) :
    t.step? j (r.relock f g) = (t.step? i r).map fun x => (x.1, x.2.relock f g) := by
  have hf : t.fire? (r.relock f g) = t.fire? r := rfl
  unfold step?
  simp only [hf, Errand.step?_relock _ h]
  split
  case h_1 =>
    split
    · rfl
    · cases t.fire? r <;> rfl
  case h_2 e _ =>
    split
    · rfl
    · cases e.step? i r <;> rfl
  all_goals rfl

theorem kill_relock (t : Ticker) (h : Carries f g i j r) :
    t.kill j (r.relock f g) = ((t.kill i r).1, (t.kill i r).2.relock f g) := by
  unfold kill
  simp only [Errand.kill_relock _ h]
  split <;> rfl

end Ticker

namespace Task

theorem step?_relock (t : Task) (h : Carries f g i j r) :
    t.step? j (r.relock f g) = (t.step? i r).map fun x => (x.1, x.2.relock f g) := by
  cases t with
  | session s => simp only [step?, Session.step?_relock s h, Option.map_map, Function.comp_def]
  | errand e => simp only [step?, Errand.step?_relock e h, Option.map_map, Function.comp_def]
  | ticker t => simp only [step?, Ticker.step?_relock t h, Option.map_map, Function.comp_def]

theorem kill_relock (t : Task) (h : Carries f g i j r) :
    t.kill j (r.relock f g) = ((t.kill i r).1, (t.kill i r).2.relock f g) := by
  cases t with
  | session s => simp only [kill, Session.kill_relock s h]
  | errand e => simp only [kill, Errand.kill_relock e h]
  | ticker t => simp only [kill, Ticker.kill_relock t h]

theorem deed?_relock (t : Task) (h : Carries f g i j r) :
    t.deed? j (r.relock f g) = t.deed? i r := by
  cases t with
  | session s => exact s.deed?_relock h
  | errand e => exact e.deed?_relock h
  | ticker t =>
    simp only [deed?, Ticker.deed?]
    split
    · exact Errand.deed?_relock _ h
    · rfl

end Task

end CommandLog
