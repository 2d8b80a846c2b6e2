import CommandLog.Proofs.Device.Takers
import CommandLog.Proofs.Hub.Serial

/-! # The stream of a device

The data of the writes to a device that succeed, in the order in which they take what is pending
there, make one stream of bytes. However it is cut into writes, and whatever else is done to the log
meanwhile, its lines are the records that the device installs, and the rest of it is pending. A
device or handle that is opened during a run is one that nobody has used before.
-/

namespace CommandLog

open FairLock

namespace Hub

variable {h h' : Hub} {ev : Event} {evs : List Event} {e : Entry} {entry : Option Entry}
  {id : TaskId} {t t' : Task} {d n : Nat} {data : Bytes} {past : List TaskId}

def accepted (h : Hub) (id : TaskId) : Bytes :=
  h.tasks[id]?.elim [] Task.accepted

/-- What has been written to a device in a run, in the order in which the writes took what was
pending there. -/
def stream (h : Hub) (d : Nat) (evs : List Event) : Bytes :=
  (h.takers d evs).flatMap (h.run evs).accepted

def writes? (h : Hub) (d : Nat) (ev : Event) : Option Bytes :=
  (h.part? ev).bind fun e => e.deed.writes? d h.resources

def installs (d : Nat) (h : Hub) (ev : Event) : List Record :=
  match h.part? ev with
  | some e => if (e.deed.writes? d h.resources).isSome then e.deed.records h.resources else []
  | none => []

def installed (h : Hub) (d : Nat) (evs : List Event) : List Record :=
  along (installs d) h evs

theorem writes?_eq_some_iff : h.writes? d ev = some data ↔
    ∃ e n, h.part? ev = some e ∧ e.deed = .errand (.write n data) ∧ h.resources.owner n = d := by
  simp only [writes?, Option.bind_eq_some_iff, Deed.writes?_eq_some_iff, exists_and_left]

theorem installs_eq (h : Hub) (d : Nat) (ev : Event) :
    installs d h ev = (h.writes? d ev).elim [] fun data =>
      (Device.assemble (h.resources.device d).pending data).1 := by
  unfold installs writes?
  cases h.part? ev with
  | none => rfl
  | some e =>
    rw [Option.bind_some]
    cases hw : e.deed.writes? d h.resources with
    | none => simp [hw]
    | some data =>
      obtain ⟨n, hx, rfl⟩ := Deed.writes?_eq_some_iff.mp hw
      simp only [hw, Option.isSome_some, if_true, Option.elim_some]
      rw [hx, (Deed.act_write n data h.resources).2.1]

theorem pending_next (hd : d < h.resources.devices.length) (ev : Event) :
    ((h.next ev).resources.device d).pending =
      (h.writes? d ev).elim (h.resources.device d).pending fun data =>
        (Device.assemble (h.resources.device d).pending data).2 := by
  rw [Resources.pending_device, ledger_next, ← Resources.pending_device, writes?]
  cases h.part? ev with
  | none => rfl
  | some e =>
    rw [Option.elim_some, Option.bind_some, e.deed.pending_act hd]
    cases e.deed.writes? d h.resources <;> rfl

theorem next_write (he : h.part? ev = some e) (hdeed : e.deed = .errand (.write n data)) :
    e.answer = .errand (.ok (.number data.length)) ∧
      (h.next ev).resources.store = h.resources.store.appendAll
        (Device.assemble (h.resources.device (h.resources.owner n)).pending data).1 ∧
      (h.next ev).resources.handles =
        h.resources.handles.modify n fun x => { x with cursor := x.cursor + data.length } := by
  obtain ⟨-, -, -, -, -, -, hanswer⟩ := part?_change he
  obtain ⟨hnumber, hrecords, hhandles⟩ := Deed.act_write n data h.resources
  have hledger := ledger_of_part? he
  rw [hdeed] at hledger
  refine ⟨?_, ?_, (congrArg Ledger.handles hledger).trans hhandles⟩
  · rw [hanswer, hdeed, hnumber]
  · rw [Resources.store_congr hledger, Deed.store_act, if_neg nofun, hrecords]

theorem flatMap_update {f : TaskId → Bytes} (hn : id ∉ past) (data : Bytes) :
    past.flatMap (Function.update f id data) = past.flatMap f :=
  List.flatMap_congr fun i hi => Function.update_of_ne (fun he : i = id => hn (he ▸ hi)) ..

/-- Whoever writes to a device was the last to take what was pending there. -/
theorem Attended.latest_of_writes (ha : h.Attended d past) {y : Deed} {r' : Resources}
    (ht : h.tasks[id]? = some t) (hc : Task.Change id h.resources ev t (some y) t' r')
    (hy : y.writes? d h.resources = some data) : past.getLast? = some id := by
  refine ha.taken.latest id ?_
  rcases (hc.writes (ha.apt id t ht) hy).1 with hi | hh
  · exact ha.serves.inside id (by simpa [deviceStake, ht] using hi)
  · exact hh

theorem Attended.flatMap_accepted_change (ha : h.Attended d past) {x : Option Deed}
    {r' : Resources} (ht : h.tasks[id]? = some t)
    (hc : Task.Change id h.resources ev t x t' r') :
    past.flatMap (h.put id (t', r')).accepted =
      past.flatMap h.accepted ++ (x.bind fun y => y.writes? d h.resources).getD [] := by
  have happ := ha.apt id t ht
  have hput : (h.put id (t', r')).accepted = Function.update h.accepted id t'.accepted :=
    elim_put ht t' r' [] Task.accepted
  have hid : h.accepted id = t.accepted := by simp [accepted, ht]
  rw [hput]
  cases hw : x.bind fun y => y.writes? d h.resources with
  | none =>
    rw [Option.getD_none, List.append_nil]
    by_cases hi : id ∈ past
    · obtain ⟨u, hu, hb⟩ := ha.begun id hi
      obtain rfl := Option.some.inj (hu.symm.trans ht)
      rw [hc.accepted_eq happ hb (Option.bind_eq_none_iff.mp hw), ← hid, Function.update_eq_self]
    · exact flatMap_update hi _
  | some data =>
    obtain ⟨y, rfl, hy⟩ := Option.bind_eq_some_iff.mp hw
    obtain ⟨-, hbefore, hafter⟩ := hc.writes happ hy
    obtain ⟨earlier, rfl⟩ := List.getLast?_eq_some_iff.mp (ha.latest_of_writes ht hc hy)
    have hnodup := ha.taken.nodup
    rw [List.nodup_append_comm, List.singleton_append] at hnodup
    have hnot : id ∉ earlier := (List.nodup_cons.mp hnodup).1
    rw [List.flatMap_append, flatMap_update hnot, List.flatMap_append]
    simp [hid, hbefore, hafter]

theorem Attended.flatMap_accepted_next (ha : h.Attended d past) (hp : ev.Proper) :
    past.flatMap (h.next ev).accepted = past.flatMap h.accepted ++ (h.writes? d ev).getD [] := by
  have hr := h.next_result ev
  unfold writes?
  generalize h.next ev = h', h.part? ev = entry at hr
  cases hr with
  | spawn t =>
    have he : accepted { h with tasks := h.tasks ++ [t] } = h.accepted :=
      elim_spawn (Task.Fresh.accepted hp) h.tasks
    simp [he]
  | elapse | nothing => exact (List.append_nil _).symm
  | @change _ id t t' x r' ht hc =>
    rw [ha.flatMap_accepted_change ht hc]
    cases x <;> rfl

theorem Attended.accepted_of_takes (ha : (h.next ev).Attended d past) (hi : id ∈ takes d h ev) :
    (h.next ev).accepted id = [] := by
  obtain ⟨t, ht, -, hn⟩ := begun_of_deviceStake (ha.serves.holder_asked (mem_granted hi))
  simp [accepted, ht, hn]

section Run

variable (hs : h.Starts) (hd : h.resources.devices[d]? = some {}) (hp : ∀ ev ∈ evs, ev.Proper)

include hs hd hp

theorem stream_concat (hev : ev.Proper) :
    h.stream d (evs ++ [ev]) = h.stream d evs ++ ((h.run evs).writes? d ev).getD [] := by
  have ha := run_attended hs hd hp
  have ha' := (next_result _ ev).attended hev ha
  have hnew : (takes d (h.run evs) ev).flatMap ((h.run evs).next ev).accepted = [] :=
    List.flatMap_eq_nil_iff.mpr fun i hi => ha'.accepted_of_takes hi
  rw [stream, takers, along_concat, run_concat, List.flatMap_append, hnew, List.append_nil]
  exact ha.flatMap_accepted_next hev

/-- The lines of the stream have been installed, and its rest is pending. -/
theorem run_assembled :
    h.installed d evs = (h.stream d evs).lines.map Record.mk ∧
      ((h.run evs).resources.device d).pending = (h.stream d evs).unfinished := by
  refine run_induction (P := fun evs => h.installed d evs = (h.stream d evs).lines.map Record.mk ∧
    ((h.run evs).resources.device d).pending = (h.stream d evs).unfinished)
    ?_ (fun evs ev hp hev ih => ?_) hp
  · exact ⟨rfl, by simp [run, Resources.device, hd]; rfl⟩
  · obtain ⟨hi, hpending⟩ := ih
    rw [installed, along_concat, ← installed, hi, installs_eq, run_concat,
      pending_next (run_attended hs hd hp).present, stream_concat hs hd hp hev]
    cases (h.run evs).writes? d ev with
    | none => simpa using hpending
    | some data =>
      -- what was pending ends the stream so far, so the data complete the same lines in both
      have ha := Device.assemble_eq (Bytes.newline_not_mem_unfinished (h.stream d evs)) data
      rw [Option.elim_some, Option.elim_some, Option.getD_some, hpending, ha,
        Bytes.unfinished_append (h.stream d evs), Bytes.lines_append (h.stream d evs),
        List.map_append]
      exact ⟨rfl, rfl⟩

theorem run_succeeded {reply : Reply}
    (ht : (h.run evs).tasks[id]? = some (.errand ⟨.write n data, .finished (.ok reply)⟩))
    (ho : h.resources.owner n = d) : reply = .number data.length ∧ id ∈ h.takers d evs ∧
      own id (h.history evs) = [(.errand (.write n data), .errand (.ok reply))] := by
  have happ := (run_attended hs hd hp).apt id _ ht
  have hown : own id (h.history evs) = [(.errand (.write n data), .errand (.ok reply))] := by
    rcases (run_accounted hs hp).reports id _ ht with hr | ⟨-, span, hr⟩
    · exact hr
    · cases hr
  refine ⟨happ n data rfl, ?_, hown⟩
  obtain ⟨e, he, rfl, hdeed⟩ := mem_own.mpr ⟨_, hown ▸ List.mem_singleton_self _⟩
  obtain ⟨earlier, ev, later, rfl, hpart⟩ := mem_history.mp he
  have ha := run_attended hs hd fun ev hev => hp ev (List.mem_append_left _ hev)
  obtain ⟨t, t', r', ht, hc, -⟩ := part?_change hpart
  have hy : e.deed.writes? d (h.run earlier).resources = some data :=
    Deed.writes?_eq_some_iff.mpr ⟨n, hdeed, run_owner h earlier ▸ ho⟩
  rw [takers, along_append]
  exact List.mem_append_left _ (List.mem_of_getLast? (ha.latest_of_writes ht hc hy))

theorem run_write (hev : ev.Proper) (he : (h.run evs).part? ev = some e)
    (hdeed : e.deed = .errand (.write n data)) (ho : h.resources.owner n = d) :
    h.stream d (evs ++ [ev]) = h.stream d evs ++ data ∧
      (h.run (evs ++ [ev])).resources.store = (h.run evs).resources.store.appendAll
        (((h.stream d evs).unfinished ++ data).lines.map Record.mk) := by
  have ho : (h.run evs).resources.owner n = d := run_owner h evs ▸ ho
  have hw : (h.run evs).writes? d ev = some data := writes?_eq_some_iff.mpr ⟨e, n, he, hdeed, ho⟩
  constructor
  · rw [stream_concat hs hd hp hev, hw, Option.getD_some]
  · rw [run_concat, (next_write he hdeed).2.1, ho, (run_assembled hs hd hp).2,
      Device.assemble_eq (Bytes.newline_not_mem_unfinished _)]

end Run

structure Assembles (h : Hub) (d : Nat) (evs : List Event) : Prop where
  installed : h.installed d evs = (h.stream d evs).lines.map Record.mk
  pending : ((h.run evs).resources.device d).pending = (h.stream d evs).unfinished
  /-- No task takes what is pending twice. -/
  once : (h.takers d evs).Nodup
  succeeded : ∀ (id : TaskId) (n : Nat) (data : Bytes) (reply : Reply),
    (h.run evs).tasks[id]? = some (.errand ⟨.write n data, .finished (.ok reply)⟩) →
    h.resources.owner n = d →
    reply = .number data.length ∧ id ∈ h.takers d evs ∧
      own id (h.history evs) = [(.errand (.write n data), .errand (.ok reply))]
  /-- In the event in which a write acts the stream grows by its data, the lines that it completes
  come into the store together, and its own cursor moves past the data, and no other. -/
  write : ∀ earlier ev later e n data, evs = earlier ++ ev :: later →
    (h.run earlier).part? ev = some e → e.deed = .errand (.write n data) →
    h.resources.owner n = d →
    let before := (h.run earlier).resources
    let after := (h.run (earlier ++ [ev])).resources
    e.answer = .errand (.ok (.number data.length)) ∧
      h.stream d (earlier ++ [ev]) = h.stream d earlier ++ data ∧
      after.store =
        before.store.appendAll (((h.stream d earlier).unfinished ++ data).lines.map Record.mk) ∧
      after.handles =
        before.handles.modify n fun x => { x with cursor := x.cursor + data.length }

/-- A device cuts the stream of what is written to it into lines, whoever writes and whatever else
is done to the log, and all that it installs or keeps depends on the stream alone. -/
theorem run_assembles (hs : h.Starts) (hd : h.resources.devices[d]? = some {})
    (hp : ∀ ev ∈ evs, ev.Proper) : h.Assembles d evs ∧
      ∀ (h' : Hub) (d' : Nat) (evs' : List Event), h'.Starts →
        h'.resources.devices[d']? = some {} → (∀ ev ∈ evs', ev.Proper) →
        h'.stream d' evs' = h.stream d evs →
        h'.installed d' evs' = h.installed d evs ∧
          ((h'.run evs').resources.device d').pending =
            ((h.run evs).resources.device d).pending := by
  obtain ⟨hinstalled, hpending⟩ := run_assembled hs hd hp
  refine ⟨⟨hinstalled, hpending, (run_attended hs hd hp).taken.nodup, ?_, ?_⟩, ?_⟩
  · exact fun id n data reply ht ho => run_succeeded hs hd hp ht ho
  · rintro earlier ev later e n data rfl he hdeed ho
    obtain ⟨hp', hev, -⟩ := by simpa [or_imp, forall_and] using hp
    obtain ⟨hstream, hstore⟩ := run_write hs hd hp' hev he hdeed ho
    obtain ⟨hanswer, -, hhandles⟩ := next_write he hdeed
    exact ⟨hanswer, hstream, hstore, run_concat h earlier ev ▸ hhandles⟩
  · intro h' d' evs' hs' hd' hp' hstream
    obtain ⟨hinstalled', hpending'⟩ := run_assembled hs' hd' hp'
    exact ⟨by rw [hinstalled', hinstalled, hstream], by rw [hpending', hpending, hstream]⟩

/-- A hub with two devices: two handles are open on the first and one on the second. -/
def bench : Hub where
  resources := {
    store := .empty 2, timeout := .ofSeconds 5, dial := fun _ => ⟨0, 0, 0⟩,
    devices := [{}, {}], handles := [⟨0, 0⟩, ⟨0, 0⟩, ⟨1, 0⟩] }

theorem bench_starts : bench.Starts where
  tasks := rfl
  lock := rfl
  store := ⟨[], Store.empty_holds (by decide)⟩

/-- A write is cut before a newline and goes on through another handle, while a line comes into the
store from elsewhere. -/
def halves : List Event :=
  [.spawn (.errand ⟨.write 0 [97], .fresh⟩), .spawn (.errand ⟨.write 1 [10, 98], .fresh⟩),
    .spawn (.errand ⟨.write 2 [99, 10], .fresh⟩), .step 0, .step 1, .step 2, .step 2, .step 0,
    .step 1, .step 2, .step 1]

def whole : List Event :=
  [.spawn (.errand ⟨.write 0 [97, 10, 98], .fresh⟩), .step 0, .step 0, .step 0]

theorem halves_assemble :
    bench.Starts ∧ bench.resources.devices[0]? = some ({} : Device) ∧
      (∀ ev ∈ halves, ev.Proper) ∧ (∀ ev ∈ whole, ev.Proper) ∧
      bench.stream 0 halves = [97, 10, 98] ∧ bench.stream 0 whole = bench.stream 0 halves ∧
      bench.Assembles 0 halves ∧ bench.installed 0 whole = bench.installed 0 halves ∧
      ((bench.run whole).resources.device 0).pending =
        ((bench.run halves).resources.device 0).pending := by
  have hd : bench.resources.devices[0]? = some ({} : Device) := rfl
  have hp : ∀ ev ∈ halves, ev.Proper := by
    simp [halves, Event.Proper, Task.Fresh]
  have hp' : ∀ ev ∈ whole, ev.Proper := by
    simp [whole, Event.Proper, Task.Fresh]
  have hstream : bench.stream 0 halves = [97, 10, 98] := by decide
  have hsame : bench.stream 0 whole = bench.stream 0 halves := by decide
  obtain ⟨ha, hrecut⟩ := run_assembles bench_starts hd hp
  have hwhole := hrecut bench 0 whole bench_starts hd hp' hsame
  exact ⟨bench_starts, hd, hp, hp', hstream, hsame, ha, hwhole⟩

end Hub

end CommandLog
