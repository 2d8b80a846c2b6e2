import CommandLog.Proofs.Hub.Change

/-! # Shutting a stream down

What comes of a shutdown matters to nobody: a run goes the same way whatever the stream of a session
answers when it is shut.
-/

namespace CommandLog

namespace Wire

def shutWith (w : Wire) (failure : Option IoError) : Wire :=
  { w with shutdownFailure := failure }

variable (w : Wire) (failure : Option IoError)

theorem read_shutWith (room : Nat) :
    (w.shutWith failure).read room = ((w.read room).1, (w.read room).2.shutWith failure) := by
  obtain ⟨arrivals, ends, intake, flushFailure, shutdownFailure, sent, flushes, shutdowns⟩ := w
  cases arrivals with
  | nil => rfl
  | cons a rest =>
    cases a with
    | chunk bs => simp only [read, shutWith]; split <;> rfl
    | failure | pause => rfl

theorem write_shutWith (bs : Bytes) :
    (w.shutWith failure).write bs = ((w.write bs).1, (w.write bs).2.shutWith failure) := by
  have he : (w.shutWith failure).isExhausted = w.isExhausted := rfl
  unfold write
  rw [he]
  split
  · simp only [shutWith]
    split <;> rfl
  · rfl

end Wire

namespace Session

def shutWith (s : Session) (failure : Option IoError) : Session :=
  { s with wire := s.wire.shutWith failure }

variable (s : Session) (failure : Option IoError) (id : TaskId) (r : Resources)

theorem receive?_shutWith :
    (s.shutWith failure).receive? id r =
      (s.receive? id r).map fun x => (x.1.shutWith failure, x.2) := by
  simp only [receive?, shutWith, Wire.read_shutWith]
  cases s.reader.poll with
  | frame f next => rfl
  | failure cause => rfl
  | bytes room next =>
    dsimp only
    generalize s.wire.read room = x
    obtain ⟨reading, w⟩ := x
    cases reading with
    | bytes bs => cases bs <;> rfl
    | failure | pause | wait => rfl

theorem send?_shutWith (outcome : Outcome) (rest : Bytes) :
    (s.shutWith failure).send? outcome rest r =
      (s.send? outcome rest r).map fun x => (x.1.shutWith failure, x.2) := by
  simp only [send?, shutWith, Wire.write_shutWith]
  split
  · rfl
  · generalize s.wire.write rest = x
    obtain ⟨writing, w⟩ := x
    cases writing with
    | taken n => cases n <;> rfl
    | failure | wait => rfl

theorem enter_shutWith (request : Option Command) :
    (s.shutWith failure).enter request r =
      ((s.enter request r).1.shutWith failure, (s.enter request r).2) := by
  cases request with
  | none => rfl
  | some command =>
    cases command with
    | append record => rfl
    | seek d => simp only [enter]; split <;> rfl

theorem step?_shutWith :
    (s.shutWith failure).step? id r =
      (s.step? id r).map fun x => (x.1.shutWith failure, x.2) := by
  have hst : (s.shutWith failure).stage = s.stage := rfl
  unfold step?
  rw [hst]
  split
  case h_1 => exact s.receive?_shutWith failure id r
  case h_2 request deadline _ =>
    split
    · rw [enter_shutWith]; rfl
    · split <;> rfl
  case h_3 => rfl
  case h_4 outcome rest _ => exact s.send?_shutWith failure r outcome rest
  case h_5 =>
    simp only [Wire.flush, shutWith, Wire.shutWith]
    cases s.wire.flushFailure <;> rfl
  all_goals rfl

theorem kill_shutWith :
    (s.shutWith failure).kill id r =
      ((s.kill id r).1.shutWith failure, (s.kill id r).2) := by
  have hst : (s.shutWith failure).stage = s.stage := rfl
  unfold kill
  rw [hst]
  split <;> rfl

end Session

namespace Task

def shutWith (failure : Option IoError) : Task → Task
  | session s => session (s.shutWith failure)
  | t => t

variable (failure : Option IoError) (t : Task) (id : TaskId) (r : Resources)

theorem step?_shutWith :
    (t.shutWith failure).step? id r =
      (t.step? id r).map fun x => (x.1.shutWith failure, x.2) := by
  cases t with
  | session s =>
    simp only [shutWith, step?, Session.step?_shutWith, Option.map_map]
    rfl
  | errand e =>
    simp only [shutWith, step?, Option.map_map]
    rfl
  | ticker t =>
    simp only [shutWith, step?, Option.map_map]
    rfl

theorem kill_shutWith :
    (t.shutWith failure).kill id r = ((t.kill id r).1.shutWith failure, (t.kill id r).2) := by
  cases t with
  | session s => simp only [shutWith, kill, Session.kill_shutWith]
  | errand | ticker => rfl

end Task

namespace Hub

/-- The hub in which one session has a stream with another outcome of its shutdown. -/
def shutWith (h : Hub) (id : TaskId) (failure : Option IoError) : Hub :=
  { h with tasks := h.tasks.modify id (Task.shutWith failure) }

variable {h : Hub} {id : TaskId} (failure : Option IoError)

theorem getElem?_shutWith (h : Hub) (id i : TaskId) :
    (h.shutWith id failure).tasks[i]? =
      h.tasks[i]?.map fun t => if id = i then t.shutWith failure else t :=
  List.getElem?_modify ..

theorem put_shutWith (h : Hub) (id i : TaskId) (t : Task) (r : Resources) :
    (h.shutWith id failure).put i (if id = i then t.shutWith failure else t, r) =
      (h.put i (t, r)).shutWith id failure := by
  have hset : (h.tasks.modify id (Task.shutWith failure)).set i
      (if id = i then t.shutWith failure else t) =
      (h.tasks.set i t).modify id (Task.shutWith failure) := by
    refine List.ext_getElem? fun j => ?_
    simp only [List.getElem?_set, List.getElem?_modify, List.length_modify]
    by_cases hj : i = j
    · subst hj
      by_cases hl : i < h.tasks.length <;> simp [hl]
    · simp [hj]
  simp [put, shutWith, hset]

theorem modify_shutWith (i : TaskId) (f : Task → Task)
    (hf : ∀ t, f (t.shutWith failure) = (f t).shutWith failure) :
    (h.tasks.modify id (Task.shutWith failure)).modify i f =
      (h.tasks.modify i f).modify id (Task.shutWith failure) := by
  refine List.ext_getElem? fun j => ?_
  simp only [List.getElem?_modify, Option.map_eq_map, Option.map_map]
  congr 1
  funext t
  by_cases hi : i = j <;> by_cases hid : id = j <;> simp [hi, hid, hf]

theorem step?_shutWith (h : Hub) (id i : TaskId) :
    (h.shutWith id failure).step? i = (h.step? i).map fun h => h.shutWith id failure := by
  simp only [step?, getElem?_shutWith]
  cases ht : h.tasks[i]? with
  | none => rfl
  | some t =>
    have hr : (h.shutWith id failure).resources = h.resources := rfl
    have hs : (if id = i then t.shutWith failure else t).step? i h.resources =
        (t.step? i h.resources).map fun x =>
          (if id = i then x.1.shutWith failure else x.1, x.2) := by
      split
      · exact t.step?_shutWith failure i h.resources
      · simp
    simp only [Option.map_some, hr, hs, Option.map_map]
    congr 1
    funext x
    exact put_shutWith failure h id i x.1 x.2

theorem put_shutWith_of_eq (h : Hub) (id i : TaskId) {t : Task} (ht : t.shutWith failure = t)
    (r : Resources) :
    (h.shutWith id failure).put i (t, r) = (h.put i (t, r)).shutWith id failure := by
  simpa [ht] using put_shutWith failure h id i t r

theorem next_shutWith (hid : id < h.tasks.length) (ev : Event) :
    (h.shutWith id failure).next ev = (h.next ev).shutWith id failure := by
  have hr : (h.shutWith id failure).resources = h.resources := rfl
  cases ev with
  | step i =>
    simp only [next, step?_shutWith]
    cases h.step? i <;> rfl
  | fire i =>
    simp only [next, getElem?_shutWith]
    cases ht : h.tasks[i]? with
    | none => rfl
    | some t =>
      cases t with
      | session s => by_cases hi : id = i <;> simp [hi, Task.shutWith]
      | errand e => simp [Task.shutWith]
      | ticker t =>
        simp only [Option.map_some, Task.shutWith, ite_self, hr]
        cases t.fire? h.resources with
        | none => rfl
        | some t => exact put_shutWith_of_eq failure h id i rfl h.resources
  | spawn t =>
    have hm : h.tasks.modify id (Task.shutWith failure) ++ [t] =
        (h.tasks ++ [t]).modify id (Task.shutWith failure) := by
      refine List.ext_getElem? fun j => ?_
      rcases Nat.lt_or_ge j h.tasks.length with hj | hj
      · rw [List.getElem?_append_left (by simpa using hj), List.getElem?_modify,
          List.getElem?_modify, List.getElem?_append_left hj]
      · have hne : id ≠ j := (Nat.lt_of_lt_of_le hid hj).ne
        rw [List.getElem?_append_right (by simpa using hj), List.getElem?_modify,
          List.getElem?_append_right hj, List.length_modify]
        simp [hne]
    simp [next, shutWith, hm]
  | kill i =>
    simp only [next, getElem?_shutWith]
    cases ht : h.tasks[i]? with
    | none => rfl
    | some t =>
      have hk : (if id = i then t.shutWith failure else t).kill i h.resources =
          (if id = i then (t.kill i h.resources).1.shutWith failure else (t.kill i h.resources).1,
            (t.kill i h.resources).2) := by
        split
        · exact t.kill_shutWith failure i h.resources
        · rfl
      simp only [Option.map_some, hr, hk]
      exact put_shutWith failure h id i _ _
  | elapse ms => rfl
  | feed i as ends =>
    refine congrArg (Hub.mk h.resources) (modify_shutWith failure i _ fun t => ?_)
    cases t <;> rfl
  | allow i more =>
    refine congrArg (Hub.mk h.resources) (modify_shutWith failure i _ fun t => ?_)
    cases t <;> rfl
  | letGo i =>
    simp only [next, getElem?_shutWith]
    cases ht : h.tasks[i]? with
    | none => rfl
    | some t =>
      cases t with
      | session s => by_cases hi : id = i <;> simp [hi, Task.shutWith]
      | errand e =>
        simp only [Option.map_some, Task.shutWith, ite_self, hr]
        exact put_shutWith_of_eq failure h id i rfl _
      | ticker t => simp [Task.shutWith]
  | stop i =>
    refine congrArg (Hub.mk h.resources) (modify_shutWith failure i _ fun t => ?_)
    cases t <;> rfl

/-- A run goes the same way whatever comes of the shutdown of a session. -/
theorem run_shutWith (hid : id < h.tasks.length) (evs : List Event) :
    (h.shutWith id failure).run evs = (h.run evs).shutWith id failure := by
  induction evs generalizing h with
  | nil => rfl
  | cons ev evs ih =>
    have hle := (h.next_result ev).length_le
    simp only [run, List.foldl_cons, next_shutWith failure hid]
    exact ih (Nat.lt_of_lt_of_le hid hle)

end Hub

end CommandLog
