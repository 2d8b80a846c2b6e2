import CommandLog.Proofs.Device.Access
import CommandLog.Proofs.Hub.Run

/-! # Who takes what is pending

In every state of a run the lock of a device and the tasks agree on who has what is pending there
and who waits for it. It goes to every task at most once, and only to writes to the device.
-/

namespace CommandLog

open FairLock

namespace Task

variable {t : Task} {r r' : Resources} {d : Nat}

theorem deviceStake_congr (h : r.owner = r'.owner) (t : Task) (d : Nat) :
    t.deviceStake d r = t.deviceStake d r' := by
  cases t with
  | errand e => simp only [deviceStake, Errand.deviceStake, Operation.device?_congr h]
  | _ => rfl

theorem Begun.congr (hb : t.Begun d r) (h : r.owner = r'.owner) : t.Begun d r' := by
  obtain ⟨e, rfl, hs, hd⟩ := hb
  exact ⟨e, rfl, hs, Operation.device?_congr h _ ▸ hd⟩

theorem Fresh.not_begun (h : t.Fresh) : ¬ t.Begun d r := by
  rintro ⟨e, rfl, hs, -⟩
  exact hs h

end Task

namespace Hub

variable {h h' : Hub} {ev : Event} {evs : List Event} {entry : Option Entry} {id : TaskId}
  {t t' : Task} {d : Nat} {past : List TaskId}

/-- The task that takes what is pending on a device in an event. -/
def takes (d : Nat) (h : Hub) (ev : Event) : List TaskId :=
  granted (h.resources.device d).lock ((h.next ev).resources.device d).lock

def takers (h : Hub) (d : Nat) (evs : List Event) : List TaskId :=
  along (takes d) h evs

def deviceStake (h : Hub) (d : Nat) (id : TaskId) : Stake :=
  h.tasks[id]?.elim .out fun t => t.deviceStake d h.resources

theorem begun_of_deviceStake (hk : h.deviceStake d id ≠ .out) :
    ∃ t, h.tasks[id]? = some t ∧ t.Begun d h.resources ∧ t.accepted = [] := by
  unfold deviceStake at hk
  cases ht : h.tasks[id]? with
  | none => simp [ht] at hk
  | some t => exact ⟨t, rfl, Task.begun_of_deviceStake (by simpa [ht] using hk)⟩

theorem deviceStake_put (ht : h.tasks[id]? = some t) (t' : Task) {r' : Resources}
    (ho : r'.owner = h.resources.owner) : (h.put id (t', r')).deviceStake d =
      Function.update (h.deviceStake d) id (t'.deviceStake d h.resources) := by
  have hk : (h.put id (t', r')).deviceStake d =
      fun i => (h.put id (t', r')).tasks[i]?.elim .out fun t => t.deviceStake d h.resources := by
    funext i
    refine congrArg _ (funext fun t => ?_)
    exact t.deviceStake_congr ho d
  rw [hk]
  exact elim_put ht t' r' Stake.out fun t => t.deviceStake d h.resources

theorem Result.owner (hr : h.Result ev entry h') : h'.resources.owner = h.resources.owner := by
  cases hr with
  | spawn | elapse | nothing => rfl
  | change _ hc => exact hc.owner

theorem run_owner (h : Hub) (evs : List Event) :
    (h.run evs).resources.owner = h.resources.owner := by
  induction evs using List.reverseRecOn with
  | nil => rfl
  | append_singleton evs ev ih =>
    rw [run_concat]
    exact (next_result _ ev).owner.trans ih

/-- The lock of a device and the tasks agree on who has had what is pending there, who has it and
who waits for it. -/
structure Attended (h : Hub) (d : Nat) (past : List TaskId) : Prop where
  present : d < h.resources.devices.length
  apt : ∀ (id : TaskId) (t : Task), h.tasks[id]? = some t → t.Apt
  serves : (h.resources.device d).lock.Serves (h.deviceStake d)
  taken : (h.resources.device d).lock.Taken past
  begun : ∀ id ∈ past, ∃ t, h.tasks[id]? = some t ∧ t.Begun d h.resources

theorem Attended.spawn (ha : h.Attended d past) (ht : t.Fresh) :
    Attended { h with tasks := h.tasks ++ [t] } d past where
  present := ha.present
  apt id u hu := by
    rcases task_spawn hu with ⟨-, rfl⟩ | ⟨-, hu⟩
    · exact ht.apt
    · exact ha.apt id u hu
  serves := by
    have hk : t.deviceStake d h.resources = .out := by
      by_contra hk
      exact ht.not_begun (Task.begun_of_deviceStake hk).1
    have he : deviceStake { h with tasks := h.tasks ++ [t] } d = h.deviceStake d :=
      elim_spawn hk h.tasks
    rw [he]
    exact ha.serves
  taken := ha.taken
  begun id hid := by
    obtain ⟨u, hu, hb⟩ := ha.begun id hid
    obtain ⟨hlt, -⟩ := List.getElem?_eq_some_iff.mp hu
    exact ⟨u, (List.getElem?_append_left hlt).trans hu, hb⟩

theorem Attended.change (ha : h.Attended d past) {x : Option Deed} {r' : Resources}
    (ht : h.tasks[id]? = some t) (hc : Task.Change id h.resources ev t x t' r') :
    (h.put id (t', r')).Attended d
      (past ++ granted (h.resources.device d).lock (r'.device d).lock) := by
  obtain ⟨hlt, -⟩ := List.getElem?_eq_some_iff.mp ht
  have happ := ha.apt id t ht
  have hk : h.deviceStake d id = t.deviceStake d h.resources := by simp [deviceStake, ht]
  have hturn := hk ▸ hc.deviceTurn happ ha.present
  have hserves : (r'.device d).lock.Serves ((h.put id (t', r')).deviceStake d) := by
    rw [deviceStake_put ht t' hc.owner]
    exact ha.serves.turn hturn
  refine ⟨hc.length_devices ▸ ha.present, fun i u hu => ?_, hserves, ?_, fun i hi => ?_⟩
  · rcases task_put hu with ⟨-, rfl⟩ | ⟨-, hu⟩
    · exact hc.apt happ
    · exact ha.apt i u hu
  · refine ha.taken.turn ha.serves hturn fun hout hnot hid => ?_
    obtain ⟨u, hu, hb⟩ := ha.begun id hid
    obtain rfl := Option.some.inj (hu.symm.trans ht)
    exact hc.not_begun_of_asks (hk ▸ hout) hnot hb
  · rcases List.mem_append.mp hi with hi | hi
    · obtain ⟨u, hu, hb⟩ := ha.begun i hi
      by_cases hid : i = id
      · subst hid
        obtain rfl := Option.some.inj (hu.symm.trans ht)
        exact ⟨t', by simp [put, hlt], (hc.begun hb).congr hc.owner.symm⟩
      · exact ⟨u, by simpa [put, Ne.symm hid] using hu, hb.congr hc.owner.symm⟩
    · -- whoever has just taken what is pending has asked for it
      obtain ⟨u, hu, hb, -⟩ := begun_of_deviceStake (hserves.holder_asked (mem_granted hi))
      exact ⟨u, hu, hb⟩

theorem Result.attended (hr : h.Result ev entry h') (hp : ev.Proper) (ha : h.Attended d past) :
    h'.Attended d
      (past ++ granted (h.resources.device d).lock (h'.resources.device d).lock) := by
  cases hr with
  | spawn t =>
    simpa using ha.spawn hp
  | elapse ms =>
    have he : Attended { h with resources := { h.resources with now := h.resources.now + ms } } d
        past := ⟨ha.present, ha.apt, ha.serves, ha.taken, ha.begun⟩
    simpa [Resources.device] using he
  | nothing => simpa using ha
  | change ht hc => exact ha.change ht hc

theorem run_attended (hs : h.Starts) (hd : h.resources.devices[d]? = some {})
    (hp : ∀ ev ∈ evs, ev.Proper) : (h.run evs).Attended d (h.takers d evs) := by
  refine run_induction (P := fun evs => (h.run evs).Attended d (h.takers d evs))
    ?_ (fun evs ev _ hev ih => ?_) hp
  · obtain ⟨hlt, -⟩ := List.getElem?_eq_some_iff.mp hd
    have hlock : (h.resources.device d).lock = {} := by simp [Resources.device, hd]
    have hk : (h.run []).deviceStake d = fun _ => .out := by
      funext i
      simp [run, deviceStake, hs.tasks]
    refine ⟨hlt, fun i t ht => by simp [run, hs.tasks] at ht, ?_, ?_, by simp [takers, along]⟩
    · rw [hk]
      exact hlock ▸ serves_free
    · exact hlock ▸ taken_free
  · rw [run_concat, takers, along_concat]
    exact (next_result _ ev).attended hev ih

end Hub

end CommandLog
