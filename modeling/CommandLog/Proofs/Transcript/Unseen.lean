import CommandLog.Proofs.Hub.Run

/-! # The transcript is not seen

Nothing but the copying of records looks at the transcript, and nobody looks at what comes of it.
So a run goes the same way without a transcript, and hence with any other one, whether its file
takes the records or not.
-/

namespace CommandLog

namespace Resources

variable {r : Resources} {id : TaskId}

def mute (r : Resources) : Resources :=
  { r with transcript := none, tree := .standard }

theorem mute_transcribe (r : Resources) (record : Record) :
    (r.transcribe record).mute = r.mute := by
  unfold transcribe
  split
  · rfl
  · split <;> rfl

@[simp] theorem ledger_mute (r : Resources) : r.mute.ledger = r.ledger := rfl

end Resources

theorem Operation.act_mute (op : Operation) (r : Resources) :
    op.act r.mute = ((op.act r).1, (op.act r).2.mute) := by
  cases op with
  | seekTo n d =>
    have hs : r.mute.store = r.store := rfl
    simp only [act, hs]
    split <;> rfl
  | seek n target =>
    have hs : r.mute.store = r.store := rfl
    have hh : r.mute.handle n = r.handle n := rfl
    simp only [act, hs, hh]
    split <;> rfl
  | _ => rfl

namespace Session

theorem receive?_mute (s : Session) (id : TaskId) (r : Resources) :
    s.receive? id r.mute = (s.receive? id r).map fun x => (x.1, x.2.mute) := by
  have hq : ∀ (s : Session) request, s.enqueue request id r.mute =
      ((s.enqueue request id r).1, (s.enqueue request id r).2.mute) := fun _ _ => rfl
  simp only [receive?, hq]
  cases s.reader.poll with
  | frame frame next => rfl
  | failure cause => rfl
  | bytes room next =>
    dsimp only
    generalize s.wire.read room = x
    obtain ⟨reading, w⟩ := x
    cases reading with
    | bytes bs => cases bs <;> rfl
    | failure | pause | wait => rfl

theorem enter_mute (s : Session) (request : Option Command) (r : Resources) :
    s.enter request r.mute = ((s.enter request r).1, (s.enter request r).2.mute) := by
  rcases request with _ | d | record
  · rfl
  · have hs : r.mute.store = r.store := rfl
    simp only [enter, hs]
    split <;> rfl
  · rfl

theorem send?_mute (s : Session) (outcome : Outcome) (rest : Bytes) (r : Resources) :
    s.send? outcome rest r.mute = (s.send? outcome rest r).map fun x => (x.1, x.2.mute) := by
  unfold send?
  split
  · rfl
  · generalize s.wire.write rest = x
    obtain ⟨writing, w⟩ := x
    cases writing with
    | taken n => cases n <;> rfl
    | failure | wait => rfl

theorem step?_mute (s : Session) (id : TaskId) (r : Resources) :
    s.step? id r.mute = (s.step? id r).map fun x => (x.1, x.2.mute) := by
  have hl : r.mute.lock = r.lock := rfl
  have hn : r.mute.now = r.now := rfl
  unfold step?
  split
  case h_1 => exact s.receive?_mute id r
  case h_2 request deadline _ =>
    rw [hl, hn, enter_mute]
    split
    · rfl
    · split <;> rfl
  case h_3 record evicted _ =>
    rw [Option.map_some, r.mute_transcribe record, r.store_transcribe]
    rfl
  case h_4 outcome rest _ => exact s.send?_mute outcome rest r
  case h_5 => split <;> rfl
  all_goals rfl

theorem kill_mute (s : Session) (id : TaskId) (r : Resources) :
    s.kill id r.mute = ((s.kill id r).1, (s.kill id r).2.mute) := by
  unfold kill
  split <;> rfl

theorem deed?_mute (s : Session) (id : TaskId) (r : Resources) :
    s.deed? id r.mute = s.deed? id r := rfl

end Session

namespace Errand

theorem leaveDevice_mute (e : Errand) (id : TaskId) (r : Resources) :
    e.leaveDevice id r.mute = (e.leaveDevice id r).mute := by
  unfold leaveDevice
  cases e.operation <;> rfl

theorem enter_mute (e : Errand) (id : TaskId) (r : Resources) :
    e.enter id r.mute = ((e.enter id r).1, (e.enter id r).2.mute) := by
  have hl : ∀ r : Resources, e.leaveDevice id r.mute.release = (e.leaveDevice id r.release).mute :=
    fun r => e.leaveDevice_mute id r.release
  unfold enter
  simp only [Operation.act_mute, hl]
  generalize e.operation.act r = x
  obtain ⟨result, after⟩ := x
  split <;> rfl

theorem step?_mute (e : Errand) (id : TaskId) (r : Resources) :
    e.step? id r.mute = (e.step? id r).map fun x => (x.1, x.2.mute) := by
  have hd : e.operation.device? r.mute = e.operation.device? r := by
    cases e.operation <;> rfl
  have hdl : e.operation.deadline? r.mute = e.operation.deadline? r := by
    cases e.operation <;> rfl
  have hh : ∀ n, r.mute.device n = r.device n := fun _ => rfl
  have hl : r.mute.lock = r.lock := rfl
  have hn : r.mute.now = r.now := rfl
  have hw : e.leaveDevice id (r.mute.withdraw id) = (e.leaveDevice id (r.withdraw id)).mute :=
    e.leaveDevice_mute id (r.withdraw id)
  unfold step?
  simp only [hd, hdl, hh, hl, hn, hw, Operation.act_mute, leaveDevice_mute, enter_mute]
  split
  case h_1 => split <;> rfl
  case h_2 =>
    split
    · split
      · split <;> rfl
      · rfl
    · rfl
  case h_3 =>
    split
    · rfl
    · split <;> rfl
  case h_4 record reply _ =>
    have hr : (r.mute.transcribe record).release = ((r.transcribe record).release).mute :=
      congrArg Resources.release (r.mute_transcribe record).symm
    rw [hr]
    rfl
  all_goals rfl

theorem letGo_mute (e : Errand) (r : Resources) :
    e.letGo r.mute = ((e.letGo r).1, (e.letGo r).2.mute) := by
  unfold letGo
  split <;> rfl

theorem kill_mute (e : Errand) (id : TaskId) (r : Resources) :
    e.kill id r.mute = ((e.kill id r).1, (e.kill id r).2.mute) := by
  have hw : e.leaveDevice id (r.mute.withdraw id) = (e.leaveDevice id (r.withdraw id)).mute :=
    e.leaveDevice_mute id (r.withdraw id)
  unfold kill
  rw [hw]
  split <;> rfl

theorem deed?_mute (e : Errand) (id : TaskId) (r : Resources) :
    e.deed? id r.mute = e.deed? id r := by
  have hd : e.operation.device? r.mute = e.operation.device? r := by
    cases e.operation <;> rfl
  unfold deed?
  rw [hd]
  rfl

end Errand

namespace Ticker

theorem step?_mute (t : Ticker) (id : TaskId) (r : Resources) :
    t.step? id r.mute = (t.step? id r).map fun x => (x.1, x.2.mute) := by
  have hf : t.fire? r.mute = t.fire? r := rfl
  unfold step?
  simp only [hf, Errand.step?_mute]
  split
  case h_1 =>
    split
    · rfl
    · cases t.fire? r <;> rfl
  case h_2 e _ =>
    split
    · rfl
    · cases e.step? id r <;> rfl
  all_goals rfl

theorem kill_mute (t : Ticker) (id : TaskId) (r : Resources) :
    t.kill id r.mute = ((t.kill id r).1, (t.kill id r).2.mute) := by
  unfold kill
  simp only [Errand.kill_mute]
  split <;> rfl

end Ticker

namespace Task

theorem step?_mute (t : Task) (id : TaskId) (r : Resources) :
    t.step? id r.mute = (t.step? id r).map fun x => (x.1, x.2.mute) := by
  cases t with
  | session s => simp only [step?, Session.step?_mute, Option.map_map, Function.comp_def]
  | errand e => simp only [step?, Errand.step?_mute, Option.map_map, Function.comp_def]
  | ticker t => simp only [step?, Ticker.step?_mute, Option.map_map, Function.comp_def]

theorem kill_mute (t : Task) (id : TaskId) (r : Resources) :
    t.kill id r.mute = ((t.kill id r).1, (t.kill id r).2.mute) := by
  cases t with
  | session s => simp only [kill, Session.kill_mute]
  | errand e => simp only [kill, Errand.kill_mute]
  | ticker t => simp only [kill, Ticker.kill_mute]

theorem deed?_mute (t : Task) (id : TaskId) (r : Resources) :
    t.deed? id r.mute = t.deed? id r := by
  cases t with
  | session s => exact s.deed?_mute id r
  | errand e => exact e.deed?_mute id r
  | ticker t =>
    simp only [deed?, Ticker.deed?]
    split
    · exact Errand.deed?_mute _ id r
    · rfl

end Task

namespace Hub

def mute (h : Hub) : Hub :=
  { h with resources := h.resources.mute }

def scribing (h : Hub) (transcript : Option Transcript) (tree : FileTree) : Hub :=
  { h with resources := { h.resources with transcript := transcript, tree := tree } }

theorem mute_next (h : Hub) (ev : Event) : h.mute.next ev = (h.next ev).mute := by
  have ht : h.mute.tasks = h.tasks := rfl
  have hr : h.mute.resources = h.resources.mute := rfl
  cases ev with
  | step id =>
    simp only [next, step?, ht, hr]
    cases h.tasks[id]? with
    | none => rfl
    | some t =>
      dsimp only
      rw [Task.step?_mute]
      cases t.step? id h.resources <;> rfl
  | fire id =>
    simp only [next, ht, hr]
    split
    case h_1 t _ =>
      have hf : t.fire? h.resources.mute = t.fire? h.resources := rfl
      rw [hf]
      split <;> rfl
    case h_2 => rfl
  | kill id =>
    simp only [next, ht, hr]
    split
    · rw [Task.kill_mute]
      rfl
    · rfl
  | letGo id =>
    simp only [next, ht, hr]
    split
    · rw [Errand.letGo_mute]
      rfl
    · rfl
  | _ => rfl

theorem mute_run (h : Hub) (evs : List Event) : h.mute.run evs = (h.run evs).mute := by
  induction evs generalizing h with
  | nil => rfl
  | cons ev evs ih =>
    simp only [run, List.foldl_cons, mute_next]
    exact ih (h.next ev)

theorem part?_mute (h : Hub) (ev : Event) : h.mute.part? ev = h.part? ev := by
  cases ev with
  | step id =>
    have ht : h.mute.tasks = h.tasks := rfl
    have hr : h.mute.resources = h.resources.mute := rfl
    have hm : Entry.made id h.resources.mute = Entry.made id h.resources := by
      funext d
      obtain ⟨ha, -⟩ := d.act_congr h.resources.ledger_mute
      simp only [Entry.made, ha]
    simp only [part?, ht, hr, Task.deed?_mute, hm]
  | _ => rfl

theorem history_mute (h : Hub) (evs : List Event) : h.mute.history evs = h.history evs := by
  induction evs generalizing h with
  | nil => rfl
  | cons ev evs ih => simp only [history, part?_mute, mute_next, ih]

theorem grants_mute (h : Hub) (evs : List Event) : h.mute.grants evs = h.grants evs := by
  induction evs generalizing h with
  | nil => rfl
  | cons ev evs ih =>
    have hg : h.mute.grant? ev = h.grant? ev := by
      rw [grant?, mute_next]
      rfl
    simp only [grants, hg, mute_next, ih]

/-- The runs of two hubs cannot be told apart: every task is in the same state, with the same
outcome or failure and the same bytes sent, the store and all else that is shared is the same, and
the same was done to the log, with the same answers and the lock going to the same tasks. -/
structure Alike (h k : Hub) (evs : List Event) : Prop where
  tasks : (k.run evs).tasks = (h.run evs).tasks
  store : (k.run evs).resources.store = (h.run evs).resources.store
  shared : (k.run evs).resources.mute = (h.run evs).resources.mute
  history : k.history evs = h.history evs
  grants : k.grants evs = h.grants evs

theorem alike_of_mute {h k : Hub} (hm : k.mute = h.mute) (evs : List Event) : h.Alike k evs := by
  have hr : (k.run evs).mute = (h.run evs).mute := by rw [← mute_run, hm, mute_run]
  have htasks : (k.run evs).mute.tasks = (h.run evs).mute.tasks := congrArg Hub.tasks hr
  have hshared : (k.run evs).mute.resources = (h.run evs).mute.resources :=
    congrArg Hub.resources hr
  have hstore : (k.run evs).mute.resources.store = (h.run evs).mute.resources.store :=
    congrArg Resources.store hshared
  refine ⟨htasks, hstore, hshared, ?_, ?_⟩
  · rw [← history_mute, hm, history_mute]
  · rw [← grants_mute, hm, grants_mute]

/-- The step after a record was stored, in which it is copied, leaves the store as it is and goes on
to the reply that was due. -/
structure Copies (h : Hub) (id : TaskId) : Prop where
  session : ∀ s record evicted, h.tasks[id]? = some (.session s) →
    s.stage = .copying record evicted →
    (h.next (.step id)).resources.store = h.resources.store ∧
      (h.next (.step id)).tasks[id]? = some (.session { s with
        stage := Session.reply (.appended evicted) (h.resources.store.readFrom 0) })
  tick : ∀ t e record reply, h.tasks[id]? = some t → t.errand? = some e →
    e.stage = .copying record reply →
    (h.next (.step id)).resources.store = h.resources.store ∧
      ∃ t', (h.next (.step id)).tasks[id]? = some t' ∧
        t'.errand? = some { e with stage := .finished (.ok reply) }

theorem copies (h : Hub) (id : TaskId) : h.Copies id where
  session s record evicted ht hs := by
    obtain ⟨hlt, -⟩ := List.getElem?_eq_some_iff.mp ht
    have hstep : s.step? id h.resources = some
        ({ s with stage := Session.reply (.appended evicted) (h.resources.store.readFrom 0) },
          h.resources.transcribe record) := by
      simp [Session.step?, hs]
    rw [next_step_session ht hstep]
    exact ⟨h.resources.store_transcribe record, by simp [put, hlt]⟩
  tick t e record reply ht he hs := by
    obtain ⟨hlt, -⟩ := List.getElem?_eq_some_iff.mp ht
    have hstep : e.step? id h.resources = some ({ e with stage := .finished (.ok reply) },
        (h.resources.transcribe record).release) := by
      simp [Errand.step?, hs]
    cases t with
    | session s => cases he
    | errand e' =>
      obtain rfl := Option.some.inj he
      have hn : h.next (.step id) = h.put id (.errand { e' with stage := .finished (.ok reply) },
          (h.resources.transcribe record).release) := by
        simp [next, step?, ht, Task.step?, hstep]
      rw [hn]
      exact ⟨h.resources.store_transcribe record,
        .errand { e' with stage := .finished (.ok reply) }, by simp [put, hlt], rfl⟩
    | ticker k =>
      have hk : k.stage = .ticking e := Task.errand?_ticker.mp he
      have hn : h.next (.step id) = h.put id
          (.ticker { k with stage := .ticking { e with stage := .finished (.ok reply) } },
            (h.resources.transcribe record).release) := by
        simp [next, step?, ht, Task.step?, Ticker.step?, hk, hs, hstep]
      rw [hn]
      exact ⟨h.resources.store_transcribe record,
        .ticker { k with stage := .ticking { e with stage := .finished (.ok reply) } },
        by simp [put, hlt], rfl⟩

/-- Whatever the transcript and whatever becomes of what is written to it, a run goes the same way,
and no record that is stored and no reply is lost over its copy. -/
theorem run_unseen (h : Hub) (transcript transcript' : Option Transcript) (tree tree' : FileTree)
    (evs : List Event) :
    (h.scribing transcript tree).Alike (h.scribing transcript' tree') evs ∧
      ∀ id, ((h.scribing transcript tree).run evs).Copies id := by
  have hm : (h.scribing transcript' tree').mute = (h.scribing transcript tree).mute := rfl
  exact ⟨alike_of_mute hm evs, copies _⟩

/-- A session is served although the file of the transcript is always full. -/
example :
    let full : Transcript := ⟨⟨"/dev/full"⟩, ⟨.special .full, 0⟩⟩
    let evs := .spawn (.session (.opened [97, 10])) :: List.replicate 8 (.step 0)
    ((((idle 1).scribing full .standard).run evs).tasks[0]?.map fun
      | .session s => (s.result?, s.wire.sent)
      | _ => (none, [])) = some (some (.ok (.appended false 2)), [97, 10]) := by rfl

end Hub

end CommandLog
