import CommandLog.Proofs.Device.Assembly
import CommandLog.Proofs.Hub.Report

/-! # Access to what is pending

A write asks for what is pending on its device, keeps it while it waits for the store, and gives it
back in the step in which it acts or gives up. So every change of a task takes at most one turn at
the lock of a device, and whatever a task writes there, it writes with that lock in hand.
-/

namespace CommandLog

open FairLock

namespace Resources

variable {r : Resources} {d : Nat}

@[simp] theorem device_transcribe (r : Resources) (record : Record) (d : Nat) :
    (r.transcribe record).device d = r.device d := by
  unfold transcribe
  split
  · rfl
  · split <;> rfl

@[simp] theorem device_release (r : Resources) (d : Nat) : r.release.device d = r.device d := rfl

end Resources

theorem Operation.device?_congr {r r' : Resources} (h : r.owner = r'.owner) (op : Operation) :
    op.device? r = op.device? r' := by
  cases op with
  | write n data => exact congrArg some (congrFun h n)
  | _ => rfl

theorem Operation.device?_eq_of_writes? {op : Operation} {d : Nat} {r : Resources} {data : Bytes}
    (h : op.writes? d r = some data) : op.device? r = some d := by
  obtain ⟨n, rfl, rfl⟩ := writes?_eq_some_iff.mp h
  rfl

namespace Errand

variable {e e' : Errand} {id : TaskId} {r r' : Resources} {x : Option Deed} {d : Nat}

/-- What an errand has of the lock of a device. -/
def deviceStake (e : Errand) (d : Nat) (r : Resources) : Stake :=
  if e.operation.device? r = some d then
    match e.stage with
    | .gathering => .asked
    | .queued _ => .inside
    | _ => .out
  else .out

def accepted (e : Errand) : Bytes :=
  match e.operation, e.stage with
  | .write _ data, .finished (.ok _) => data
  | _, _ => []

/-- A write acts and ends in one step, and says how much it took: only a tick and a hold keep the
lock of the store for longer. -/
def Apt (e : Errand) : Prop :=
  match e.stage with
  | .copying record _ => e.operation = .tick record
  | .holding => e.operation = .hold
  | .finished (.ok reply) => ∀ n data, e.operation = .write n data → reply = .number data.length
  | _ => True

theorem Move.apt (m : e.Move id r x e' r') (h : e.Apt) : e'.Apt := by
  cases m with
  | hold _ _ ho => exact ho
  | tick _ _ ho => exact ho
  | collect | act =>
    obtain ⟨op, stage⟩ := e
    simp only [Apt]
    split
    case h_3 he =>
      rintro n data rfl
      exact (Except.ok.inj (Errand.Stage.finished.inj he)).symm
    all_goals trivial
  | copy hs =>
    rw [Apt, hs] at h
    intro n data ho
    cases h.symm.trans ho
  | gather | queue | expired => trivial

theorem device_leaveDevice (hd : d < r.devices.length) (e : Errand) (id : TaskId) :
    ((e.leaveDevice id r).device d).lock =
      if e.operation.device? r = some d then (r.device d).lock.withdraw id
      else (r.device d).lock := by
  unfold leaveDevice
  cases hn : e.operation.device? r with
  | none => rfl
  | some n =>
    simp only [Resources.device_modifyDevice hd, Option.some.injEq]
    split <;> rfl

theorem lock_device_act (hd : d < r.devices.length) (op : Operation) :
    ((op.act r).2.device d).lock = (r.device d).lock := by
  rw [op.device_act hd]
  split <;> rfl

theorem device_leaveDevice_act (hd : d < r.devices.length) (e : Errand) (id : TaskId) :
    ((e.leaveDevice id (e.operation.act r).2).device d).lock =
      if e.operation.device? r = some d then (r.device d).lock.withdraw id
      else (r.device d).lock := by
  rw [device_leaveDevice (by rwa [Operation.length_devices_act]),
    Operation.device?_congr (e.operation.owner_act r), lock_device_act hd]

theorem device_leaveDevice_lock (e : Errand) (id : TaskId) (r : Resources) (l : FairLock)
    (d : Nat) :
    (e.leaveDevice id { r with lock := l }).device d = (e.leaveDevice id r).device d := by
  obtain ⟨op, stage⟩ := e
  cases op <;> rfl

theorem Move.lock_device (m : e.Move id r x e' r') (hd : d < r.devices.length)
    (hw : e.operation.device? r ≠ some d) : (r'.device d).lock = (r.device d).lock := by
  cases m with
  | @gather n hs hn =>
    have hne : n ≠ d := fun he => hw (he ▸ hn)
    rw [Resources.device_modifyDevice hd, if_neg hne]
  | queue => rfl
  | collect => rw [device_leaveDevice_act hd, if_neg hw]
  | hold | tick => rfl
  | act => rw [Resources.release, device_leaveDevice_lock, device_leaveDevice_act hd, if_neg hw]
  | expired => rw [Resources.withdraw, device_leaveDevice_lock, device_leaveDevice hd, if_neg hw]
  | copy => rw [Resources.device_release, Resources.device_transcribe]

theorem deviceStake_of_ne (hw : e.operation.device? r ≠ some d) : e.deviceStake d r = .out :=
  if_neg hw

theorem Move.deviceTurn (m : e.Move id r x e' r') (hd : d < r.devices.length) :
    Turn id (r.device d).lock (e.deviceStake d r) (r'.device d).lock (e'.deviceStake d r) := by
  by_cases hw : e.operation.device? r = some d
  case neg =>
    have hw' : e'.operation.device? r ≠ some d := m.deed.1 ▸ hw
    rw [m.lock_device hd hw, deviceStake_of_ne hw, deviceStake_of_ne hw']
    exact .keep
  case pos =>
    have hw' : e'.operation.device? r = some d := m.deed.1 ▸ hw
    rw [deviceStake, if_pos hw, deviceStake, if_pos hw']
    cases m with
    | @gather n hs hn =>
      obtain rfl : n = d := Option.some.inj (hn.symm.trans hw)
      rw [Resources.device_modifyDevice hd, if_pos rfl, hs]
      exact .ask
    | queue _ hq =>
      obtain ⟨hs, hh⟩ := hq d hw
      rw [hs]
      exact .enter hh
    | collect =>
      rw [device_leaveDevice_act hd, if_pos hw]
      exact .withdraw
    | hold _ _ ho => cases (ho ▸ hw : (Operation.hold).device? r = some d)
    | tick _ _ ho => cases (ho ▸ hw : (Operation.tick _).device? r = some d)
    | act =>
      rw [Resources.release, device_leaveDevice_lock, device_leaveDevice_act hd, if_pos hw]
      exact .withdraw
    | expired =>
      rw [Resources.withdraw, device_leaveDevice_lock, device_leaveDevice hd, if_pos hw]
      exact .withdraw
    | copy hs =>
      rw [Resources.device_release, Resources.device_transcribe, hs]
      exact .keep

theorem lock_device_kill (e : Errand) (id : TaskId) (hd : d < r.devices.length)
    (hw : e.operation.device? r ≠ some d) :
    ((e.kill id r).2.device d).lock = (r.device d).lock := by
  unfold kill
  split
  case h_1 | h_2 => rfl
  case h_3 => rw [Resources.withdraw, device_leaveDevice_lock, device_leaveDevice hd, if_neg hw]

theorem deviceStake_kill (e : Errand) (id : TaskId) (r r' : Resources) (d : Nat) :
    (e.kill id r).1.deviceStake d r' = .out := by
  unfold kill
  split
  case h_1 hs | h_2 hs => simp [deviceStake, hs]
  case h_3 => simp [deviceStake]

theorem kill_deviceTurn (hd : d < r.devices.length) (e : Errand) (id : TaskId) :
    Turn id (r.device d).lock (e.deviceStake d r) ((e.kill id r).2.device d).lock
      ((e.kill id r).1.deviceStake d r) := by
  rw [deviceStake_kill]
  by_cases hw : e.operation.device? r = some d
  case neg =>
    rw [e.lock_device_kill id hd hw, deviceStake_of_ne hw]
    exact .keep
  case pos =>
    unfold kill
    split
    case h_1 hs | h_2 hs => simpa [deviceStake, hs] using .keep
    case h_3 =>
      rw [Resources.withdraw, device_leaveDevice_lock, device_leaveDevice hd, if_pos hw]
      exact .withdraw

theorem letGo_deviceTurn (e : Errand) (id : TaskId) (r : Resources) (d : Nat) :
    Turn id (r.device d).lock (e.deviceStake d r) ((e.letGo r).2.device d).lock
      ((e.letGo r).1.deviceStake d r) := by
  unfold letGo
  split
  case h_1 hs =>
    simp only [deviceStake, hs]
    exact .keep
  case h_2 => exact .keep

/-- An errand that writes to a device has its lock, and knows it or has asked for it. -/
theorem Move.writes {op : Operation} (m : e.Move id r (some (.errand op)) e' r')
    {data : Bytes} (hw : op.writes? d r = some data) :
    e.deviceStake d r = .inside ∨ (r.device d).lock.holder = some id := by
  have hop : op = e.operation := by simpa using m.deed.2 _ rfl
  subst hop
  have hdevice := Operation.device?_eq_of_writes? hw
  cases m with
  | collect _ _ hh => exact .inr (hh d hdevice)
  | hold hs | tick hs | act hs =>
    left
    rw [deviceStake, if_pos hdevice, hs]

theorem Move.accepted_of_writes {op : Operation} (m : e.Move id r (some (.errand op)) e' r')
    {data : Bytes} (hw : op.writes? d r = some data) : e.accepted = [] ∧ e'.accepted = data := by
  have hop : op = e.operation := by simpa using m.deed.2 _ rfl
  obtain ⟨n, hdata, -⟩ := Operation.writes?_eq_some_iff.mp hw
  rw [hop] at hdata
  cases m with
  | collect hs | act hs => simp [accepted, hdata, hs, Operation.act]
  | hold _ _ ho | tick _ _ ho => cases hdata.symm.trans ho

theorem Move.accepted_eq (m : e.Move id r x e' r') (ha : e.Apt)
    (hd : e.operation.device? r = some d) (hw : ∀ y ∈ x, y.writes? d r = none) :
    e'.accepted = e.accepted := by
  obtain ⟨op, stage⟩ := e
  cases op with
  | write n data =>
    have hwrites : (Operation.write n data).writes? d r = some data :=
      if_pos (Option.some.inj hd)
    cases m with
    | gather hs => simp [accepted, show stage = .fresh from hs]
    | queue hs => rcases hs with hs | hs <;> simp [accepted, show stage = _ from hs]
    | collect | act => cases hwrites.symm.trans (hw _ rfl)
    | hold _ _ ho | tick _ _ ho => cases ho
    | expired hs => simp [accepted, show stage = _ from hs]
    | copy hs =>
      -- only a tick copies its record, and a tick is no write
      rw [Apt, hs] at ha
      cases ha
  | _ => cases hd

/-- An errand asks for the lock of a device when it begins, and only then. -/
theorem Move.fresh_of_asks (m : e.Move id r x e' r') (hs : e.deviceStake d r = .out)
    (hs' : e'.deviceStake d r ≠ .out) : e.stage = .fresh := by
  have hw : e.operation.device? r = some d := by
    by_contra hw
    exact hs' (deviceStake_of_ne (m.deed.1 ▸ hw))
  cases m with
  | gather hs => exact hs
  | queue _ hq => simp [deviceStake, hw, (hq d hw).1] at hs
  | collect | hold | tick | act | expired | copy => simp [deviceStake] at hs'

theorem Move.not_fresh (m : e.Move id r x e' r') : e'.stage ≠ .fresh := by
  cases m <;> nofun

theorem apt_kill (e : Errand) (h : e.Apt) (id : TaskId) (r : Resources) :
    (e.kill id r).1.Apt := by
  unfold kill
  split
  case h_1 | h_2 => exact h
  case h_3 => trivial

theorem apt_letGo (e : Errand) (h : e.Apt) (r : Resources) : (e.letGo r).1.Apt := by
  unfold letGo
  split
  case h_1 hs =>
    rw [Apt, hs] at h
    intro n data ho
    cases h.symm.trans ho
  case h_2 => exact h

theorem kill_not_fresh (e : Errand) (id : TaskId) (r : Resources) :
    (e.kill id r).1.stage ≠ .fresh := by
  unfold kill
  split
  case h_1 hs | h_2 hs => simp [hs]
  case h_3 => nofun

theorem accepted_kill (e : Errand) (id : TaskId) (r : Resources) :
    (e.kill id r).1.accepted = e.accepted := by
  unfold kill
  split
  case h_1 | h_2 => rfl
  case h_3 hs _ =>
    unfold accepted
    split
    case h_1 he => cases he
    case h_2 =>
      split
      case h_1 he => exact absurd he (hs _)
      case h_2 => rfl

end Errand

theorem Session.Move.device {s s' : Session} {id : TaskId} {r r' : Resources} {x : Option Deed}
    (m : s.Move id r x s' r') (d : Nat) : r'.device d = r.device d := by
  cases m with
  | copy => exact r.device_transcribe _ d
  | _ => rfl

namespace Task

variable {ev : Hub.Event} {t t' : Task} {id : TaskId} {r r' : Resources} {x : Option Deed} {d : Nat}

def deviceStake (t : Task) (d : Nat) (r : Resources) : Stake :=
  match t with
  | errand e => e.deviceStake d r
  | _ => .out

def accepted : Task → Bytes
  | errand e => e.accepted
  | _ => []

/-- Writes to devices are errands of their own, which act and end in one step. -/
def Apt : Task → Prop
  | session _ => True
  | errand e => e.Apt
  | ticker t => ∀ e, t.stage = .ticking e → ∃ record, e.operation = t.operation record

theorem Fresh.apt (h : t.Fresh) : t.Apt := by
  cases t with
  | session => trivial
  | errand e =>
    have h : e.stage = .fresh := h
    simp [Apt, Errand.Apt, h]
  | ticker t =>
    have h : t.stage = .waiting ∨ t.stage = .killed := h
    intro e he
    simp [he] at h

theorem Fresh.accepted (h : t.Fresh) : t.accepted = [] := by
  cases t with
  | errand e =>
    have h : e.stage = .fresh := h
    simp [Task.accepted, Errand.accepted, h]
  | _ => rfl

theorem ticker_move_apt {t t' : Ticker} (m : t.Move id r x t' r') (h : (ticker t).Apt) :
    (ticker t').Apt := by
  cases m with
  | stop | done =>
    intro e he
    cases he
  | @fire due time =>
    rintro _ ⟨⟩
    exact ⟨Timestamp.record time, rfl⟩
  | tick hs hm =>
    rintro _ ⟨⟩
    obtain ⟨record, ho⟩ := h _ hs
    exact ⟨record, hm.deed.1.trans ho⟩

theorem Change.apt (c : Change id r ev t x t' r') (h : t.Apt) : t'.Apt := by
  cases c with
  | session => trivial
  | errand m => exact m.apt h
  | ticker m | fire m => exact ticker_move_apt m h
  | kill =>
    cases t with
    | session => trivial
    | errand e => exact e.apt_kill h id r
    | ticker t =>
      simp only [Task.kill, Ticker.kill]
      split
      case h_1 | h_2 =>
        intro e he
        cases he
      case h_3 | h_4 => exact h
  | letGo e => exact e.apt_letGo h r
  | feed | allow => trivial
  | warn => exact h

/-- The task is a write to a device and has asked for what is pending there. -/
def Begun (t : Task) (d : Nat) (r : Resources) : Prop :=
  ∃ e, t = .errand e ∧ e.stage ≠ .fresh ∧ e.operation.device? r = some d

theorem begun_of_deviceStake (h : t.deviceStake d r ≠ .out) : t.Begun d r ∧ t.accepted = [] := by
  cases t with
  | session | ticker => exact absurd rfl h
  | errand e =>
    have hd : e.operation.device? r = some d := by
      by_contra hd
      exact h (Errand.deviceStake_of_ne hd)
    refine ⟨⟨e, rfl, fun hs => h ?_, hd⟩, ?_⟩
    · simp [deviceStake, Errand.deviceStake, hs]
    · simp only [deviceStake, Errand.deviceStake, hd, if_true] at h
      simp only [accepted, Errand.accepted]
      split
      case h_1 hs => simp [hs] at h
      case h_2 => rfl

theorem Apt.device?_eq_none {t : Ticker} {e : Errand} (h : (ticker t).Apt)
    (hs : t.stage = .ticking e) (r : Resources) : e.operation.device? r = none := by
  obtain ⟨record, ho⟩ := h e hs
  rw [ho, Ticker.operation]
  split <;> rfl

theorem ticker_move_lock {t t' : Ticker} (m : t.Move id r x t' r') (h : (ticker t).Apt)
    (hd : d < r.devices.length) : (r'.device d).lock = (r.device d).lock := by
  cases m with
  | stop | fire | done => rfl
  | tick hs hm =>
    exact hm.lock_device hd (by simp [h.device?_eq_none hs r])

theorem Change.deviceTurn (c : Change id r ev t x t' r') (h : t.Apt) (hd : d < r.devices.length) :
    Turn id (r.device d).lock (t.deviceStake d r) (r'.device d).lock (t'.deviceStake d r) := by
  cases c with
  | session m =>
    rw [m.device d]
    exact .keep
  | errand m => exact m.deviceTurn hd
  | ticker m =>
    rw [ticker_move_lock m h hd]
    exact .keep
  | fire => exact .keep
  | kill =>
    cases t with
    | session s =>
      simp only [Task.kill, Session.kill]
      split <;> exact .keep
    | errand e => exact e.kill_deviceTurn hd id
    | ticker t =>
      simp only [Task.kill, Ticker.kill]
      split
      case h_2 e hs =>
        rw [e.lock_device_kill id hd (by simp [h.device?_eq_none hs r])]
        exact .keep
      all_goals exact .keep
  | letGo e => exact e.letGo_deviceTurn id r d
  | feed | allow | warn => exact .keep

theorem Change.writes {y : Deed} (c : Change id r ev t (some y) t' r') (h : t.Apt)
    {data : Bytes} (hw : y.writes? d r = some data) :
    (t.deviceStake d r = .inside ∨ (r.device d).lock.holder = some id) ∧
      t.accepted = [] ∧ t'.accepted = data := by
  cases c with
  | session m => cases m <;> cases hw
  | @errand e _ _ _ m =>
    obtain rfl : y = .errand e.operation := m.deed.2 y rfl
    exact ⟨m.writes hw, m.accepted_of_writes hw⟩
  | ticker m =>
    cases m with
    | tick hs hm =>
      obtain rfl := hm.deed.2 y rfl
      have hdevice := Operation.device?_eq_of_writes? hw
      rw [h.device?_eq_none hs r] at hdevice
      cases hdevice

theorem Change.accepted_eq (c : Change id r ev t x t' r') (h : t.Apt) (hb : t.Begun d r)
    (hw : ∀ y ∈ x, y.writes? d r = none) : t'.accepted = t.accepted := by
  obtain ⟨e, rfl, hs, hd⟩ := hb
  cases c with
  | errand m => exact m.accepted_eq h hd hw
  | kill => exact e.accepted_kill id r
  | letGo =>
    simp only [accepted, Errand.letGo]
    split
    case h_1 hs =>
      simp only [Apt, Errand.Apt, hs] at h
      rw [h] at hd
      cases hd
    case h_2 => rfl

theorem Change.begun (c : Change id r ev t x t' r') (hb : t.Begun d r) : t'.Begun d r := by
  obtain ⟨e, rfl, hs, hd⟩ := hb
  cases c with
  | errand m => exact ⟨_, rfl, m.not_fresh, m.deed.1 ▸ hd⟩
  | kill =>
    exact ⟨(e.kill id r).1, rfl, e.kill_not_fresh id r, by rwa [Errand.operation_kill]⟩
  | letGo =>
    refine ⟨_, rfl, ?_, ?_⟩ <;> simp only [Errand.letGo] <;> split
    · nofun
    · exact hs
    · exact hd
    · exact hd

theorem Change.not_begun_of_asks (c : Change id r ev t x t' r') (hs : t.deviceStake d r = .out)
    (hs' : t'.deviceStake d r ≠ .out) : ¬ t.Begun d r := by
  rintro ⟨e, rfl, hf, -⟩
  cases c with
  | errand m => exact hf (m.fresh_of_asks hs hs')
  | kill => exact hs' (e.deviceStake_kill id r r d)
  | letGo =>
    refine hs' ?_
    simp only [deviceStake, Errand.letGo]
    split
    · simp [Errand.deviceStake]
    · exact hs

theorem Change.owner (c : Change id r ev t x t' r') : r'.owner = r.owner := by
  rw [Resources.owner_congr c.ledger]
  cases x with
  | none => rfl
  | some y => exact y.owner_act r

theorem Change.length_devices (c : Change id r ev t x t' r') :
    r'.devices.length = r.devices.length := by
  rw [Resources.length_devices_congr c.ledger]
  cases x with
  | none => rfl
  | some y => exact y.length_devices_act r

end Task

end CommandLog
