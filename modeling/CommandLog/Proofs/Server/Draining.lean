import CommandLog.Proofs.Drain
import CommandLog.Proofs.Hub.Clock
import CommandLog.Proofs.Server.Teardown

/-! # The drain of a server

A server that has left its loop waits for its sessions one after another. If time passes only while
the drain waits, and no further than to the next time at which it has something to do, then the
drain comes to the verdicts, and to its end, as a drain of workers with the times of completion that
the run shows.
-/

namespace CommandLog

namespace Hub

variable {h h' : Hub} {ev : Event} {entry : Option Entry} {id : TaskId}

theorem isOver_run_of_lt (hi : id < h.tasks.length) (ho : h.isOver id = true)
    (evs : List Event) : (h.run evs).isOver id = true := by
  have ht : h.tasks[id]? = some h.tasks[id] := List.getElem?_eq_getElem hi
  obtain ⟨t', ht', ho'⟩ := isOver_run ht ((isOver_of_getElem? ht).symm.trans ho) evs
  exact (isOver_of_getElem? ht').trans ho'

theorem isOver_next_of_ne (hi : id < h.tasks.length) (he : ev.task? ≠ some id) :
    (h.next ev).isOver id = h.isOver id := by
  simp [isOver, task_next_of_ne h hi he]

theorem length_le_next (h : Hub) (ev : Event) : h.tasks.length ≤ (h.next ev).tasks.length :=
  (h.next_result ev).length_le

end Hub

namespace Server

variable {s s' : Server} {ev : Event} {evs : List Event} {id : TaskId} {ids : List TaskId}
  {deadline : Nat}

def now (s : Server) : Nat :=
  s.hub.resources.now

def draining (s : Server) : List TaskId :=
  match s.phase with
  | .draining ids _ => ids
  | _ => []

/-- The verdict that falls in an event, with the session that it is on. -/
def verdict? (s : Server) (ev : Event) : Option (TaskId × Verdict) :=
  match ev, s.phase with
  | .proceed, .draining (id :: _) deadline =>
    match Drain.verdict deadline s.now (s.hub.isOver id) with
    | .waiting => none
    | v => some (id, v)
  | _, _ => none

def settled (s : Server) : List Event → List (TaskId × Verdict)
  | [] => []
  | ev :: evs => (s.verdict? ev).toList ++ (s.next ev).settled evs

/-- The time at which a session is over, if that comes before the drain gives it up. -/
def completion (s : Server) (id : TaskId) : List Event → Option Nat
  | [] => if s.hub.isOver id then some s.now else none
  | ev :: evs =>
    if s.hub.isOver id then some s.now
    else if s.verdict? ev = some (id, .aborted) then none
    else (s.next ev).completion id evs

/-- The time at which nobody is left to wait for. -/
def drained? (s : Server) : List Event → Option Nat
  | [] => if s.draining = [] then some s.now else none
  | ev :: evs => if s.draining = [] then some s.now else (s.next ev).drained? evs

/-- Time passes only while the drain waits, and not beyond its deadline. -/
def isTimely (s : Server) : Event → Bool
  | .hub (.elapse ms) =>
    match s.phase with
    | .draining (id :: _) deadline => !s.hub.isOver id && s.now + ms ≤ deadline
    | _ => true
  | _ => true

/-- The drain goes on whenever it can before time passes. -/
def Eager (s : Server) : List Event → Prop
  | [] => True
  | ev :: evs => s.isTimely ev = true ∧ (s.next ev).Eager evs

instance decidableEager : ∀ (s : Server) (evs : List Event), Decidable (s.Eager evs)
  | _, [] => .isTrue trivial
  | s, ev :: evs =>
    have : Decidable ((s.next ev).Eager evs) := decidableEager (s.next ev) evs
    inferInstanceAs (Decidable (_ ∧ _))

structure Drains (s : Server) (ids : List TaskId) (deadline : Nat) : Prop where
  phase : s.phase = .draining ids deadline ∨
    ids = [] ∧ s.draining = [] ∧ s.phase.isOpen = false
  nodup : ids.Nodup
  known : ∀ id ∈ ids, id < s.hub.tasks.length
  now_le : ids ≠ [] → s.now ≤ deadline

theorem Drains.draining_eq (h : s.Drains ids deadline) : s.draining = ids := by
  rcases h.phase with hp | ⟨rfl, hd, -⟩
  · simp [draining, hp]
  · exact hd

theorem verdict?_proceed {rest : List TaskId} (hp : s.phase = .draining (id :: rest) deadline) :
    s.verdict? .proceed = if s.hub.isOver id then some (id, .finished)
      else if deadline ≤ s.now then some (id, .aborted) else none := by
  cases ho : s.hub.isOver id with
  | true => simp [verdict?, hp, Drain.verdict, ho]
  | false => by_cases hd : deadline ≤ s.now <;> simp [verdict?, hp, Drain.verdict, ho, hd]

theorem verdict?_of_ne (he : ev ≠ .proceed) : s.verdict? ev = none := by
  unfold verdict?
  split
  · exact absurd rfl he
  · rfl

theorem verdict?_of_draining (hd : s.draining = []) : s.verdict? ev = none := by
  unfold verdict?
  split
  case h_1 hp => simp [draining, hp] at hd
  case h_2 => rfl

inductive Passes (s : Server) (ids : List TaskId) (deadline : Nat) (ev : Event) : Prop where
  /-- The verdict falls on the first session, and the others stay as they are. -/
  | settle {id : TaskId} {rest : List TaskId} {v : Verdict} : ids = id :: rest →
      s.verdict? ev = some (id, v) →
      (s.hub.isOver id = true ∧ v = .finished ∨ s.hub.isOver id = false ∧ v = .aborted ∧
        deadline = s.now ∧ (s.next ev).hub.isOver id = true) →
      (s.next ev).Drains rest deadline → (s.next ev).now = s.now →
      (∀ i ∈ rest, (s.next ev).hub.isOver i = s.hub.isOver i) → Passes s ids deadline ev
  /-- No verdict falls; if time passes, then the first session is still running. -/
  | wait : s.verdict? ev = none → (s.next ev).Drains ids deadline → s.now ≤ (s.next ev).now →
      (∀ i ∈ ids, s.hub.isOver i = true → (s.next ev).hub.isOver i = true) →
      ((s.next ev).now = s.now ∨ ∀ i ∈ ids.head?, s.hub.isOver i = false) → Passes s ids deadline ev

theorem Drains.settles {rest : List TaskId} (h : s.Drains (id :: rest) deadline) :
    s.Passes (id :: rest) deadline .proceed := by
  have hp : s.phase = .draining (id :: rest) deadline := by simpa using h.phase
  have hnow : s.now ≤ deadline := h.now_le (List.cons_ne_nil _ _)
  obtain ⟨hid, hnodup⟩ := List.nodup_cons.mp h.nodup
  have hknown : ∀ i ∈ rest, i < s.hub.tasks.length := fun i hi =>
    h.known i (List.mem_cons_of_mem _ hi)
  have hv := verdict?_proceed hp
  cases ho : s.hub.isOver id with
  | true =>
    have hn : s.next .proceed = { s with phase := .draining rest deadline } := by
      simp [next, proceed?, hp, Drain.verdict, ho]
    refine .settle rfl (by simpa [ho] using hv) (.inl ⟨ho, rfl⟩) ?_ ?_ ?_ <;> rw [hn]
    · exact ⟨.inl rfl, hnodup, hknown, fun _ => hnow⟩
    · rfl
    · exact fun _ _ => rfl
  | false =>
    by_cases hd : deadline ≤ s.now
    · have hn : s.next .proceed =
          { s with hub := s.hub.next (.kill id), phase := .draining rest deadline } := by
        have hd : deadline ≤ s.hub.resources.now := hd
        simp [next, proceed?, hp, Drain.verdict, ho, hd]
      have hclock : (s.hub.next (.kill id)).resources.now = s.now := s.hub.now_next _
      have hdead : deadline = s.now := le_antisymm hd hnow
      refine .settle rfl (by simpa [ho, hd] using hv) (.inr ⟨ho, rfl, hdead, ?_⟩) ?_ ?_ ?_ <;>
        rw [hn]
      · exact s.hub.isOver_next_kill id
      · refine ⟨.inl rfl, hnodup, fun i hi => ?_, fun _ => hclock.trans_le hnow⟩
        exact (hknown i hi).trans_le (s.hub.length_le_next _)
      · exact hclock
      · intro i hi
        refine Hub.isOver_next_of_ne (hknown i hi) ?_
        rintro ⟨⟩
        exact hid hi
    · have hn : s.next .proceed = s := by
        have hd : ¬ deadline ≤ s.hub.resources.now := hd
        simp [next, proceed?, hp, Drain.verdict, ho, hd]
      refine .wait (by simpa [ho, hd] using hv) ?_ ?_ ?_ ?_ <;> rw [hn]
      · exact h
      · exact fun _ _ ho => ho
      · exact .inl rfl

theorem Result.drains (hr : s.Result ev s') (h : s.Drains ids deadline)
    (hv : ids = [] ∨ ev ≠ .proceed) : s'.phase = .draining ids deadline ∨
      ids = [] ∧ s'.draining = [] ∧ s'.phase.isOpen = false := by
  rcases h.phase with hp | ⟨rfl, hd, ho⟩
  · cases hr with
    | nothing | trigger | heed | hub => exact .inl hp
    | drained hp' =>
      rcases hv with rfl | hv
      · exact .inr ⟨rfl, rfl, rfl⟩
      · exact absurd rfl hv
    | finish hp' | abort hp' =>
      rcases hv with rfl | hv
      · cases hp.symm.trans hp'
      · exact absurd rfl hv
    | serve hp' | start _ hp' | accept _ hp' | falter hp' | resume hp' | leave hp' | clear hp'
    | cleared hp' | remove hp' => cases hp.symm.trans hp'
  · refine .inr ⟨rfl, ?_⟩
    cases hr with
    | nothing | trigger | heed | hub => exact ⟨hd, ho⟩
    | drained | clear | cleared | remove => exact ⟨rfl, rfl⟩
    | serve hp | start _ hp | accept _ hp | falter hp | resume hp | leave hp =>
      simp [hp, Phase.isOpen] at ho
    | finish hp | abort hp => simp [draining, hp] at hd

def Event.duration : Event → Nat
  | .hub ev => ev.duration
  | _ => 0

theorem now_next (s : Server) (ev : Event) : (s.next ev).now = s.now + ev.duration := by
  by_cases hh : ∃ x, ev = .hub x
  · obtain ⟨x, rfl⟩ := hh
    exact s.hub.now_next x
  · have hz : ev.duration = 0 := by
      cases ev with
      | hub x => exact absurd ⟨x, rfl⟩ hh
      | _ => rfl
    have hr := s.next_result ev
    generalize s.next ev = s' at hr ⊢
    rw [hz]
    cases hr with
    | start | accept | abort | clear => exact s.hub.now_next _
    | remove =>
      change (removeTranscript s.hub.resources).now = s.hub.resources.now
      unfold removeTranscript
      split
      · rfl
      · split <;> rfl
    | hub x => exact absurd ⟨x, rfl⟩ hh
    | _ => rfl

theorem Result.tasks (hr : s.Result ev s') : s.hub.tasks.length ≤ s'.hub.tasks.length ∧
    ∀ i < s.hub.tasks.length, s.hub.isOver i = true → s'.hub.isOver i = true := by
  have hub : ∀ x : Hub.Event, s.hub.tasks.length ≤ (s.hub.next x).tasks.length ∧
      ∀ i < s.hub.tasks.length, s.hub.isOver i = true → (s.hub.next x).isOver i = true :=
    fun x => ⟨s.hub.length_le_next x, fun i hi ho => Hub.isOver_run_of_lt hi ho [x]⟩
  cases hr with
  | start | accept | abort | clear | hub => exact hub _
  | heed _ ht hs =>
    rw [← next_stop_step ht hs]
    refine ⟨(hub (.stop _)).1.trans (Hub.length_le_next _ _), fun i hi ho => ?_⟩
    exact Hub.isOver_run_of_lt hi ho [.stop _, .step _]
  | _ => exact ⟨le_rfl, fun _ _ ho => ho⟩

theorem isOver_run_of_lt (hi : id < s.hub.tasks.length) (ho : s.hub.isOver id = true)
    (evs : List Event) : (s.run evs).hub.isOver id = true := by
  induction evs generalizing s with
  | nil => exact ho
  | cons ev evs ih =>
    obtain ⟨hlength, hover⟩ := (s.next_result ev).tasks
    exact ih (hi.trans_le hlength) (hover id hi ho)

theorem Drains.passes (h : s.Drains ids deadline) (ht : s.isTimely ev = true) :
    s.Passes ids deadline ev := by
  by_cases hv : ids = [] ∨ ev ≠ .proceed
  · have hr := s.next_result ev
    obtain ⟨hlength, hover⟩ := hr.tasks
    have hnow := s.now_next ev
    -- time that passes before a verdict leaves room for it, and the session is still running
    have hroom : ids ≠ [] → (s.next ev).now ≤ deadline ∧
        ((s.next ev).now = s.now ∨ ∀ i ∈ ids.head?, s.hub.isOver i = false) := by
      intro hne
      obtain ⟨id, rest, rfl⟩ := List.exists_cons_of_ne_nil hne
      have hp : s.phase = .draining (id :: rest) deadline := by simpa using h.phase
      by_cases he : ∃ ms, ev = .hub (.elapse ms)
      · obtain ⟨ms, rfl⟩ := he
        obtain ⟨ho, hle⟩ : s.hub.isOver id = false ∧ s.now + ms ≤ deadline := by
          simpa [isTimely, hp] using ht
        exact ⟨hnow.trans_le hle, .inr (by simpa using ho)⟩
      · have hz : ev.duration = 0 := by
          cases ev with
          | hub x =>
            cases x with
            | elapse ms => exact absurd ⟨ms, rfl⟩ he
            | _ => rfl
          | _ => rfl
        rw [hz, Nat.add_zero] at hnow
        exact ⟨hnow.trans_le (h.now_le hne), .inl hnow⟩
    refine .wait ?_ ⟨hr.drains h hv, h.nodup, fun i hi => (h.known i hi).trans_le hlength,
      fun hne => (hroom hne).1⟩ (hnow ▸ Nat.le_add_right _ _)
      (fun i hi => hover i (h.known i hi)) ?_
    · rcases hv with rfl | hv
      · exact verdict?_of_draining h.draining_eq
      · exact verdict?_of_ne hv
    · by_cases hne : ids = []
      · exact .inr (by simp [hne])
      · exact (hroom hne).2
  · obtain ⟨hne, rfl⟩ : ids ≠ [] ∧ ev = .proceed := by simpa using hv
    obtain ⟨id, rest, rfl⟩ := List.exists_cons_of_ne_nil hne
    exact h.settles

theorem completion_of_isOver (ho : s.hub.isOver id = true) (evs : List Event) :
    s.completion id evs = some s.now := by
  cases evs <;> simp [completion, ho]

theorem le_completion {t : Nat} (ht : s.completion id evs = some t) : s.now ≤ t := by
  induction evs generalizing s with
  | nil =>
    unfold completion at ht
    split at ht
    · exact (Option.some.inj ht).le
    · cases ht
  | cons ev evs ih =>
    unfold completion at ht
    split at ht
    · exact (Option.some.inj ht).le
    · split at ht
      · cases ht
      · exact (Nat.le_add_right _ _).trans (s.now_next ev ▸ ih ht)

theorem completion_cons (ho : s.hub.isOver id = false)
    (hv : s.verdict? ev ≠ some (id, .aborted)) (evs : List Event) :
    s.completion id (ev :: evs) = (s.next ev).completion id evs := by
  simp [completion, ho, hv]

/-- What a run shows of a drain, of which the times of completion that the run shows are known. -/
structure Shows (s : Server) (ids : List TaskId) (deadline : Nat) (evs : List Event) : Prop where
  drains : ∃ rest, (s.settled evs).map Prod.fst ++ rest = ids ∧ (s.run evs).Drains rest deadline
  verdicts : s.settled evs <+: ids.map fun id =>
    (id, Drain.outcome deadline (s.completion id evs))
  ends : ∀ time, s.drained? evs = some time →
    time = Drain.finish deadline s.now (ids.map (s.completion · evs))
  aborted : ∀ id, (id, .aborted) ∈ s.settled evs → (s.run evs).hub.isOver id = true

theorem Drains.shows_nil (h : s.Drains ids deadline) : s.Shows ids deadline [] := by
  refine ⟨⟨ids, rfl, h⟩, List.nil_prefix, fun time ht => ?_, by simp [settled]⟩
  simp only [drained?, h.draining_eq] at ht
  split at ht
  case isTrue hids =>
    rw [hids]
    exact (Option.some.inj ht).symm
  case isFalse => cases ht

theorem Shows.wait (hs : (s.next ev).Shows ids deadline evs) (h : s.Drains ids deadline)
    (hv : s.verdict? ev = none) (hd : (s.next ev).Drains ids deadline)
    (hle : s.now ≤ (s.next ev).now)
    (hover : ∀ i ∈ ids, s.hub.isOver i = true → (s.next ev).hub.isOver i = true)
    (hroom : (s.next ev).now = s.now ∨ ∀ i ∈ ids.head?, s.hub.isOver i = false) :
    s.Shows ids deadline (ev :: evs) := by
  obtain ⟨hdrains, hverdicts, hends, haborted⟩ := hs
  have hrun : s.run (ev :: evs) = (s.next ev).run evs := rfl
  have hsettled : s.settled (ev :: evs) = (s.next ev).settled evs := by simp [settled, hv]
  -- who is over already has completed now, or at a later time that is as good
  have hc : ∀ id ∈ ids, s.completion id (ev :: evs) = (s.next ev).completion id evs ∨
      s.completion id (ev :: evs) = some s.now ∧
        (s.next ev).completion id evs = some (s.next ev).now := by
    intro id hi
    cases ho : s.hub.isOver id with
    | true => exact .inr ⟨completion_of_isOver ho _, completion_of_isOver (hover id hi ho) _⟩
    | false => exact .inl (completion_cons ho (by simp [hv]) evs)
  refine ⟨by rwa [hsettled, hrun], ?_, fun time ht => ?_, by rwa [hsettled, hrun]⟩
  · rw [hsettled]
    convert hverdicts using 1
    refine List.map_congr_left fun id hi => ?_
    have hdead := hd.now_le (List.ne_nil_of_mem hi)
    simp only [Drain.outcome, Drain.isOverAt_congr hle hdead (hc id hi)]
  · by_cases hids : ids = []
    · subst hids
      simpa [drained?, h.draining_eq, eq_comm, Drain.finish_nil] using ht
    · rw [drained?, h.draining_eq, if_neg hids] at ht
      rw [hends time ht]
      refine (Drain.finish_congr hle (hd.now_le hids) hc (hroom.imp_right fun hrun => ?_)).symm
      obtain ⟨id, rest, rfl⟩ := List.exists_cons_of_ne_nil hids
      refine ⟨id, List.mem_cons_self, fun t ht => ?_⟩
      rw [completion_cons (hrun id rfl) (by simp [hv])] at ht
      exact le_completion ht

theorem Shows.settle {rest : List TaskId} {v : Verdict} (hs : (s.next ev).Shows rest deadline evs)
    (h : s.Drains (id :: rest) deadline) (hv : s.verdict? ev = some (id, v))
    (hwhy : s.hub.isOver id = true ∧ v = .finished ∨ s.hub.isOver id = false ∧ v = .aborted ∧
      deadline = s.now ∧ (s.next ev).hub.isOver id = true)
    (hnow : (s.next ev).now = s.now)
    (hsame : ∀ i ∈ rest, (s.next ev).hub.isOver i = s.hub.isOver i) :
    s.Shows (id :: rest) deadline (ev :: evs) := by
  obtain ⟨⟨rest', horder, hend⟩, hverdicts, hends, haborted⟩ := hs
  have hdead := h.now_le (List.cons_ne_nil _ _)
  have hsettled : s.settled (ev :: evs) = (id, v) :: (s.next ev).settled evs := by
    simp [settled, hv]
  have hne : ∀ i ∈ rest, i ≠ id := by
    rintro i hi rfl
    exact (List.nodup_cons.mp h.nodup).1 hi
  have hc : ∀ i ∈ rest, s.completion i (ev :: evs) = (s.next ev).completion i evs := by
    intro i hi
    cases ho : s.hub.isOver i with
    | true => rw [completion_of_isOver ho, completion_of_isOver ((hsame i hi).trans ho), hnow]
    | false => exact completion_cons ho (by simp [hv, Ne.symm (hne i hi)]) evs
  have hid : s.completion id (ev :: evs) = some s.now ∧ v = .finished ∨
      s.completion id (ev :: evs) = none ∧ v = .aborted ∧ deadline = s.now := by
    rcases hwhy with ⟨ho, rfl⟩ | ⟨ho, rfl, hdn, -⟩
    · exact .inl ⟨completion_of_isOver ho _, rfl⟩
    · exact .inr ⟨by simp [completion, ho, hv], rfl, hdn⟩
  refine ⟨⟨rest', by simp [hsettled, horder], hend⟩, ?_, fun time ht => ?_, fun i hi => ?_⟩
  · rw [hsettled, List.map_cons, List.map_congr_left fun i hi => by rw [hc i hi]]
    have hv : v = Drain.outcome deadline (s.completion id (ev :: evs)) := by
      rcases hid with ⟨hc, rfl⟩ | ⟨hc, rfl, -⟩ <;> rw [hc]
      · exact (Drain.outcome_some hdead).symm
      · rfl
    rw [← hv]
    exact (List.prefix_cons_inj _).mpr hverdicts
  · rw [drained?, h.draining_eq, if_neg (List.cons_ne_nil _ _)] at ht
    rw [hends time ht, List.map_cons, Drain.finish_cons hdead, hnow,
      List.map_congr_left fun i hi => hc i hi]
    rcases hid with ⟨hc, -⟩ | ⟨hc, -, hdn⟩
    · rw [hc]
      simp [Drain.waitEnd]
    · rw [hc, ← hdn, Drain.finish_deadline]
      simp [Drain.waitEnd, Drain.finish_deadline]
  · rw [hsettled, List.mem_cons] at hi
    rcases hi with hi | hi
    · obtain ⟨rfl, rfl⟩ := Prod.mk.inj hi
      obtain ⟨-, hf⟩ | ⟨-, -, -, ho⟩ := hwhy
      · cases hf
      · have hlt := (h.known i List.mem_cons_self).trans_le (s.next_result ev).tasks.1
        exact isOver_run_of_lt hlt ho evs
    · exact haborted i hi

theorem Drains.shows (h : s.Drains ids deadline) (he : s.Eager evs) : s.Shows ids deadline evs := by
  induction evs generalizing s ids with
  | nil => exact h.shows_nil
  | cons ev evs ih =>
    cases h.passes he.1 with
    | wait hv hd hle hover hroom => exact (ih hd he.2).wait h hv hd hle hover hroom
    | settle hids hv hwhy hd hnow hsame =>
      subst hids
      exact (ih hd he.2).settle h hv hwhy hnow hsame

theorem Drains.ends (h : s.Drains ids deadline)
    (ho : ∀ i ∈ ids, s.hub.isOver i = true ∨ deadline ≤ s.now) :
    (s.run (List.replicate ids.length .proceed)).draining = [] := by
  induction ids generalizing s with
  | nil => exact h.draining_eq
  | cons id rest ih =>
    cases h.settles with
    | wait hv =>
      have hp : s.phase = .draining (id :: rest) deadline := by simpa using h.phase
      rw [verdict?_proceed hp] at hv
      rcases ho id List.mem_cons_self with ho | hd
      · simp [ho] at hv
      · cases ho : s.hub.isOver id <;> simp [ho, hd] at hv
    | settle hids hv hwhy hd hnow hsame =>
      obtain ⟨rfl, rfl⟩ := List.cons.inj hids
      refine ih hd fun i hi => ?_
      rw [hsame i hi, hnow]
      exact ho i (List.mem_cons_of_mem _ hi)

/-- The sessions of which a server keeps account are tasks, each listed once. -/
structure Manned (s : Server) : Prop where
  nodup : s.sessions.Nodup
  known : ∀ id ∈ s.sessions, id < s.hub.tasks.length

theorem Result.manned (hr : s.Result ev s') (h : s.Manned) : s'.Manned := by
  have hlength := hr.tasks.1
  cases hr with
  | accept w hp =>
    have hsub : ∀ id ∈ s.sessions.filter (!s.hub.isOver ·), id < s.hub.tasks.length :=
      fun id hi => h.known id (List.mem_filter.mp hi).1
    refine ⟨?_, fun id hi => ?_⟩
    · refine List.nodup_append.mpr ⟨h.nodup.filter _, List.nodup_singleton _, ?_⟩
      rintro id hi _ hn rfl
      exact absurd (hsub id hi) (by simp [List.mem_singleton.mp hn])
    · have hn : (s.hub.next (.spawn (.session
          { wire := w, reader := s.settings.lineReader }))).tasks.length =
          s.hub.tasks.length + 1 := List.length_append
      rw [hn]
      rcases List.mem_append.mp hi with hi | hi
      · exact (hsub id hi).trans (Nat.lt_succ_self _)
      · rw [List.mem_singleton.mp hi]
        exact Nat.lt_succ_self _
  | _ => exact ⟨h.nodup, fun id hi => (h.known id hi).trans_le hlength⟩

theorem run_manned (hs : s.Starts) (evs : List Event) : (s.run evs).Manned := by
  induction evs using List.reverseRecOn with
  | nil => exact ⟨by simp [run, hs.sessions], by simp [run, hs.sessions]⟩
  | append_singleton evs ev ih =>
    rw [run_concat]
    exact (next_result _ ev).manned ih

theorem settings_run (s : Server) (evs : List Event) : (s.run evs).settings = s.settings := by
  induction evs using List.reverseRecOn with
  | nil => rfl
  | append_singleton evs ev ih =>
    rw [run_concat, ← ih]
    have hr := (s.run evs).next_result ev
    generalize (s.run evs).next ev = s' at hr ⊢
    cases hr <;> rfl

theorem settings_of_bind {settings : Settings} {host : Host} {tree : FileTree}
    {dial : Nat → ZonedTime} (hb : (bind settings host tree dial).1 = .ok s) :
    s.settings = settings := by
  unfold bind at hb
  split at hb
  case h_1 => cases hb
  case h_2 =>
    split at hb
    case h_1 => cases hb
    case h_2 =>
      unfold listen at hb
      dsimp only at hb
      split at hb
      case h_1 => cases hb
      case h_2 =>
        obtain rfl := Except.ok.inj hb
        rfl

theorem drains_of_leave? {x : Server} (hm : s.Manned) (hl : s.leave? = some x) :
    x.Drains s.sessions s.drainDeadline ∧ x.now = s.now := by
  unfold leave? at hl
  split at hl
  case h_1 =>
    obtain rfl := Option.some.inj hl
    exact ⟨⟨.inl rfl, hm.nodup, hm.known, fun _ => Nat.le_add_right _ _⟩, rfl⟩
  case h_2 => cases hl

structure Drained (s : Server) (ids : List TaskId) (grace : Nat) (evs : List Event) : Prop where
  order : (s.settled evs).map Prod.fst ++ (s.run evs).draining = ids
  /-- They are those of a drain of workers with the times of completion that the run shows. -/
  verdicts : s.settled evs <+:
    Drain.settled s.now grace (ids.map fun id => (id, s.completion id evs))
  ends : ∀ time, s.drained? evs = some time →
    time = (Drain.run s.now grace (ids.map (s.completion · evs))).2
  aborted : ∀ id, (id, .aborted) ∈ s.settled evs → (s.run evs).hub.isOver id = true
  bounded : (s.run evs).draining ≠ [] → (s.run evs).now ≤ s.now + grace
  /-- Nothing keeps it from its end at the deadline, or once every session is over. -/
  returns : ((s.run evs).now = s.now + grace ∨
      ∀ id ∈ (s.run evs).draining, (s.run evs).hub.isOver id = true) →
    ((s.run evs).run (List.replicate (s.run evs).draining.length .proceed)).draining = []

theorem Drains.drained {grace : Nat} (h : s.Drains ids (s.now + grace)) (he : s.Eager evs) :
    s.Drained ids grace evs := by
  obtain ⟨⟨rest, horder, hrest⟩, hverdicts, hends, haborted⟩ := h.shows he
  have hd := hrest.draining_eq
  refine ⟨by rwa [hd], ?_, fun time ht => ?_, haborted, fun hne => hrest.now_le (hd ▸ hne), ?_⟩
  · rw [Drain.settled_eq, List.map_map]
    exact hverdicts
  · rw [Drain.run_snd]
    exact hends time ht
  · intro hready
    rw [hd] at hready ⊢
    refine hrest.ends fun i hi => ?_
    rcases hready with hnow | ho
    · exact .inr hnow.ge
    · exact .inl (ho i hi)

/-- A drain aborts exactly the workers that are unfinished at its deadline, in whatever order they
are listed, and is over then, or as soon as all of them are; and a server that is told to stop
drains its sessions so, within the grace that its settings give. -/
theorem run_drains {settings : Settings} {host : Host} {tree : FileTree} {dial : Nat → ZonedTime}
    {x : Server} {later : List Event} (hb : (bind settings host tree dial).1 = .ok s)
    (hl : (s.run evs).leave? = some x) (he : x.Eager later) :
    (∀ start grace (workers : List (TaskId × Option Nat)), Drain.Fair start grace workers) ∧
      x.Drained (s.run evs).sessions settings.shutdownGrace.ceilMilliseconds later := by
  obtain ⟨hd, hnow⟩ := drains_of_leave? (run_manned (bind_starts hb) evs) hl
  refine ⟨Drain.fair, Drains.drained ?_ he⟩
  rwa [drainDeadline, settings_run, settings_of_bind hb, ← now, ← hnow] at hd

/-- A session that never gets a newline is aborted at the deadline; the one behind it in the list
has long finished when its turn comes. -/
theorem scribe_drains :
    let evs : List Event := [.start, .accept { arrivals := [.chunk [98]] }, .accept {}, .trigger]
    let x := (scribe.run evs).next .leave
    let later : List Event := [.hub (.step 1), .hub (.elapse 100),
      .hub (.feed 2 [.chunk [97, 10]] none), .hub (.step 2), .hub (.step 2), .hub (.step 2),
      .hub (.step 2), .hub (.step 2), .hub (.step 2), .hub (.step 2), .hub (.step 2),
      .hub (.elapse 4900), .proceed, .proceed]
    (bind scribe.settings .looped .standard scribe.hub.resources.dial).1 = .ok scribe ∧
      (scribe.run evs).leave? = some x ∧ x.Eager later ∧
      x.settled later = [(1, .aborted), (2, .finished)] ∧ x.completion 2 later = some 100 ∧
      x.drained? later = some 5000 ∧
      ((∀ start grace (workers : List (TaskId × Option Nat)), Drain.Fair start grace workers) ∧
        x.Drained [1, 2] 5000 later) := by
  intro evs x later
  have hl : (scribe.run evs).leave? = some x := rfl
  have he : x.Eager later := by decide +kernel
  exact ⟨bind_scribe, hl, he, by decide +kernel, by decide +kernel, by decide +kernel,
    run_drains bind_scribe hl he⟩

end Server

end CommandLog
