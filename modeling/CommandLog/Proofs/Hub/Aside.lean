import CommandLog.Proofs.Hub.Attempt

/-! # Standing in the queue

While a task stands in the queue of a lock that another one has, everyone else goes on as if it did
not: they do the same to the log, they obtain the lock in the same order, and those in the queue
keep their places. When the task gives up, it is as if it had been dropped before it asked.
-/

namespace CommandLog.Hub

open FairLock

variable {h : Hub} {ev : Event} {evs evs' : List Event} {x : TaskId} {e e' : Errand}

def others (x : TaskId) (evs : List Event) : List Event :=
  evs.filter (·.task? ≠ some x)

/-- After other events it is the same for everybody but one task: what they have come to, what has
been done to the log, and who has had the lock. -/
structure Matches (h : Hub) (x : TaskId) (evs evs' : List Event) : Prop where
  tasks : ∀ i ≠ x, (h.run evs').tasks[i]? = (h.run evs).tasks[i]?
  length : (h.run evs').tasks.length = (h.run evs).tasks.length
  history : h.history evs' = h.history evs
  grants : h.grants evs' = h.grants evs

theorem matches_refl (h : Hub) (x : TaskId) (evs : List Event) : h.Matches x evs evs :=
  ⟨fun _ _ => rfl, rfl, rfl, rfl⟩

theorem Matches.symm (hm : h.Matches x evs evs') : h.Matches x evs' evs :=
  ⟨fun i hi => (hm.tasks i hi).symm, hm.length.symm, hm.history.symm, hm.grants.symm⟩

/-- An event of the task that does nothing to the log and does not move the lock does not show. -/
theorem Matches.skip (hm : h.Matches x evs evs') (hx : ev.task? = some x)
    (hp : (h.run evs).part? ev = none) (hg : (h.run evs).grant? ev = none) :
    h.Matches x (evs ++ [ev]) evs' where
  tasks i hi := by
    rw [run_concat, tasks_next_of_ne _ hx hi]
    exact hm.tasks i hi
  length := by
    rw [run_concat, length_next_of_task _ hx]
    exact hm.length
  history := by simpa [history_concat, hp] using hm.history
  grants := by simpa [grants_concat, hg] using hm.grants

theorem Matches.concat {f : FairLock → FairLock} (hm : h.Matches x evs evs')
    (hr : (h.run evs').resources = (h.run evs).resources.relock f id)
    (hx : ev.task? ≠ some x)
    (hc : ∀ i ≠ x, FairLock.Carries f i i (h.run evs).resources.lock)
    (hh : (f (h.run evs).resources.lock).holder = (h.run evs).resources.lock.holder)
    (hh' : (f ((h.run evs).next ev).resources.lock).holder =
      ((h.run evs).next ev).resources.lock.holder) :
    h.Matches x (evs ++ [ev]) (evs' ++ [ev]) ∧
      (h.run (evs' ++ [ev])).resources = (h.run (evs ++ [ev])).resources.relock f id := by
  have hp : Parallel f id id (· = x) (h.run evs) (h.run evs') := ⟨hr, fun i hi => hm.tasks i hi⟩
  have hs : Shared f id id (· = x) (h.run evs) ev := by
    intro i hi
    have hi : ev.task? = some i := hi
    have hne : i ≠ x := fun he => hx (he ▸ hi)
    exact ⟨hne, hc i hne, fun l => carries_id i l⟩
  have hev : ev.rename id = ev := ev.rename_id
  have hp' := hp.next Function.injective_id hev hs fun _ _ => hm.length
  have hpart := hp.part? hev hs
  have hgrant := hp.grant? hp' Function.injective_id (by simpa using hh) (by simpa using hh')
  rw [run_concat, run_concat]
  refine ⟨⟨?_, ?_, ?_, ?_⟩, hp'.resources⟩
  · intro i hi
    rw [run_concat, run_concat]
    exact hp'.tasks i hi
  · rw [run_concat, run_concat]
    exact length_next_congr hm.length ev
  · rw [history_concat, history_concat, hm.history, hpart]
    cases (h.run evs).part? ev <;> rfl
  · rw [grants_concat, grants_concat, hm.grants, hgrant]
    simp

theorem Matches.append (hm : h.Matches x evs evs')
    (hr : (h.run evs').resources = (h.run evs).resources) {later : List Event}
    (hl : ∀ ev ∈ later, ev.task? ≠ some x) :
    h.Matches x (evs ++ later) (evs' ++ later) ∧
      (h.run (evs' ++ later)).resources = (h.run (evs ++ later)).resources := by
  induction later using List.reverseRecOn with
  | nil => simpa using ⟨hm, hr⟩
  | append_singleton later ev ih =>
    obtain ⟨hm, hr⟩ := ih fun ev hev => hl ev (by simp [hev])
    have h' := hm.concat (f := id) (by rw [hr, Resources.relock_id]) (hl ev (by simp))
      (fun i _ => carries_id i _) rfl rfl
    rwa [Resources.relock_id, List.append_assoc, List.append_assoc] at h'

theorem others_concat (x : TaskId) (evs : List Event) (ev : Event) :
    others x (evs ++ [ev]) = others x evs ++ if ev.task? = some x then [] else [ev] := by
  by_cases hx : ev.task? = some x <;> simp [others, hx]

theorem task_others (hx : x < h.tasks.length) (evs : List Event) :
    (h.run (others x evs)).tasks[x]? = h.tasks[x]? ∧
      x < (h.run (others x evs)).tasks.length := by
  induction evs using List.reverseRecOn with
  | nil => exact ⟨rfl, hx⟩
  | append_singleton evs ev ih =>
    rw [others_concat]
    split
    case isTrue => rwa [List.append_nil]
    case isFalse hne =>
      obtain ⟨ht, hlt⟩ := ih
      rw [run_concat]
      have hle := ((h.run (others x evs)).next_result ev).length_le
      exact ⟨(task_next_of_ne _ hlt hne).trans ht, hlt.trans_le hle⟩

/-- While an operation waits for the lock, all is as if it had not asked, but that it stands in the
queue. -/
structure Waits (h : Hub) (x : TaskId) (wait : List Event) : Prop where
  queued : ∃ e deadline, h.errand? x = some e ∧ e.Unasked ∧
    (h.run (.step x :: wait)).errand? x = some { e with stage := .queued deadline }
  holder : (h.run (.step x :: wait)).resources.lock.holder ≠ some x
  resources : (h.run (others x wait)).resources =
    (h.run (.step x :: wait)).resources.withdraw x
  same : h.Matches x (.step x :: wait) (others x wait)

theorem grant?_of_holder (hh : (h.next ev).resources.lock.holder = h.resources.lock.holder) :
    h.grant? ev = none :=
  if_pos hh

/-- To ask for a lock that is taken is to stand in its queue. -/
theorem waits_nil (hs : h.resources.lock.Serves h.stake) (he : h.errand? x = some e)
    (hu : e.Unasked) (hn : e.stage = .gathering → e.operation.needsStore = true)
    {deadline : Option Nat}
    (he' : (h.next (.step x)).errand? x = some { e with stage := .queued deadline })
    (hr : (h.next (.step x)).resources = h.resources.request x)
    (hh : h.resources.lock.holder ≠ none) : h.Waits x [] := by
  have hout : x ∉ h.resources.lock.line := by
    rw [hs.mem_line, stake_of_errand? he, hu.stake]
    exact not_not.mpr rfl
  obtain ⟨hholder, hwithdraw⟩ := withdraw_request hout hh
  have hlock : (h.next (.step x)).resources.lock = h.resources.lock.request x :=
    congrArg Resources.lock hr
  have hx : (h.next (.step x)).resources.lock.holder = h.resources.lock.holder := by
    rw [hlock, hholder]
  have hd : e.deed? x h.resources = none := by
    rcases hu with hu | hu
    · simp [Errand.deed?, hu]
    · simp only [Errand.deed?, hu, hn hu]
      split <;> simp
  refine ⟨⟨e, deadline, he, hu, he'⟩, ?_, ?_, ?_⟩
  · change (h.next (.step x)).resources.lock.holder ≠ some x
    rw [hx]
    exact fun hin => hout (by simp [line, hin])
  · change h.resources = (h.next (.step x)).resources.withdraw x
    rw [hr, Resources.withdraw, Resources.request, hwithdraw]
  · exact (matches_refl h x []).skip rfl (part?_of_errand? he hd rfl) (grant?_of_holder hx)

theorem run_step_concat (h : Hub) (x : TaskId) (wait : List Event) (ev : Event) :
    h.run (.step x :: (wait ++ [ev])) = (h.run (.step x :: wait)).next ev :=
  h.run_concat (.step x :: wait) ev

theorem Waits.aside {wait : List Event} (hw : h.Waits x wait)
    (hs : (h.run (.step x :: wait)).resources.lock.Serves (h.run (.step x :: wait)).stake)
    (hx : ev.task? ≠ some x)
    (hh : ((h.run (.step x :: wait)).next ev).resources.lock.holder ≠ some x) :
    h.Waits x (wait ++ [ev]) := by
  obtain ⟨e, deadline, he, hu, hq⟩ := hw.queued
  have hq' : (h.run (.step x :: (wait ++ [ev]))).errand? x =
      some { e with stage := .queued deadline } := by
    rw [run_step_concat, errand?, task_next_of_ne _ (lt_of_errand? hq) hx]
    exact hq
  have hr : (h.run (others x wait)).resources =
      (h.run (.step x :: wait)).resources.relock (·.withdraw x) id := by
    rw [hw.resources]
    simp [Resources.relock, Resources.withdraw]
  have hholder : ∀ {l : FairLock}, l.holder ≠ some x → (l.withdraw x).holder = l.holder := by
    intro l hl
    rw [withdraw_of_ne hl]
  obtain ⟨hm, hr'⟩ := hw.same.concat hr hx
    (fun i hi => carries_withdraw hs hw.holder hi) (hholder hw.holder) (hholder hh)
  refine ⟨⟨e, deadline, he, hu, hq'⟩, ?_, ?_, ?_⟩
  · rwa [run_step_concat]
  · rw [others_concat, if_neg hx]
    simpa [Resources.relock, Resources.withdraw] using hr'
  · rw [others_concat, if_neg hx]
    exact hm

theorem Waits.part? {wait : List Event} (hw : h.Waits x wait) (hx : ev.task? = some x) :
    (h.run (.step x :: wait)).part? ev = none := by
  obtain ⟨e, deadline, -, -, hq⟩ := hw.queued
  refine part?_of_errand? hq ?_ hx
  simp [Errand.deed?, hw.holder]

theorem Waits.idle {wait : List Event} (hw : h.Waits x wait) (hx : ev.task? = some x)
    (he' : ((h.run (.step x :: wait)).next ev).errand? x = (h.run (.step x :: wait)).errand? x)
    (hr : ((h.run (.step x :: wait)).next ev).resources = (h.run (.step x :: wait)).resources) :
    h.Waits x (wait ++ [ev]) := by
  obtain ⟨e, deadline, he, hu, hq⟩ := hw.queued
  refine ⟨⟨e, deadline, he, hu, ?_⟩, ?_, ?_, ?_⟩
  · rw [run_step_concat, he', hq]
  · rw [run_step_concat, hr]
    exact hw.holder
  · rw [others_concat, if_pos hx, List.append_nil, run_step_concat, hr]
    exact hw.resources
  · rw [others_concat, if_pos hx, List.append_nil]
    exact hw.same.skip hx (hw.part? hx) (grant?_of_holder (by rw [hr]))

theorem Waits.passes {wait : List Event} (hw : h.Waits x wait)
    (hs : (h.run (.step x :: wait)).resources.lock.Serves (h.run (.step x :: wait)).stake)
    (he' : ((h.run (.step x :: wait)).next ev).errand? x = some e') :
    (h.Waits x (wait ++ [ev]) ∧ e'.Open ∧ (ev.task? = some x →
      ((h.run (.step x :: wait)).next ev).resources = (h.run (.step x :: wait)).resources)) ∨
    e'.Sure x ((h.run (.step x :: wait)).next ev).resources ∨
    (ev = .step x ∧ ¬ e'.Open ∧ ∃ e, h.errand? x = some e ∧ e.Unasked ∧
      ((h.run (.step x :: wait)).next ev).resources =
        e.leaveDevice x ((h.run (.step x :: wait)).resources.withdraw x)) := by
  obtain ⟨e, deadline, he, hu, hq⟩ := hw.queued
  have hpass := ((h.run (.step x :: wait)).next_result ev).passes hq
  rw [he'] at hpass
  generalize hn : ((h.run (.step x :: wait)).next ev).resources = r' at hpass ⊢
  cases hpass with
  | aside hx =>
    by_cases hh : r'.lock.holder = some x
    · exact .inr (.inl (.inr (.inr ⟨rfl, hh⟩)))
    · exact .inl ⟨hw.aside hs hx (by rwa [hn]), nofun, fun h => absurd h hx⟩
  | idle hx => exact .inl ⟨hw.idle hx (he'.trans hq.symm) hn, nofun, fun _ => rfl⟩
  | move m =>
    cases m with
    | gather hst | collect hst | copy hst => cases hst
    | queue hst => rcases hst with hst | hst <;> cases hst
    | hold _ hh | tick _ hh | act _ hh => exact absurd hh hw.holder
    | expired => exact .inr (.inr ⟨rfl, fun ho => ho _ rfl, e, he, hu, rfl⟩)
  | kill _ hk =>
    obtain rfl := hk e' rfl
    exact .inr (.inl (.inl rfl))
  | letGo hst => cases hst

/-- To give up a wait comes to the same as to be dropped before it. -/
theorem Waits.gaveUp {wait : List Event} (hw : h.Waits x wait) (he : h.errand? x = some e)
    (hu : e.Unasked)
    (hr : ((h.run (.step x :: wait)).next (.step x)).resources =
      e.leaveDevice x ((h.run (.step x :: wait)).resources.withdraw x)) :
    h.Matches x (.step x :: (wait ++ [.step x])) (others x wait ++ [.kill x]) ∧
      (h.run (others x wait ++ [.kill x])).resources =
        (h.run (.step x :: (wait ++ [.step x]))).resources := by
  have hholder : ((h.run (.step x :: wait)).next (.step x)).resources.lock.holder =
      (h.run (.step x :: wait)).resources.lock.holder := by
    rw [hr, Errand.lock_leaveDevice]
    simp [Resources.withdraw, withdraw_of_ne hw.holder]
  have hother : (h.run (others x wait)).errand? x = some e := by
    rw [errand?, (task_others (lt_of_errand? he) wait).1]
    exact he
  have hkill : ((h.run (others x wait)).next (.kill x)).resources =
      ((h.run (.step x :: wait)).next (.step x)).resources := by
    rw [resources_kill hother hu, hr, hw.resources]
    simp [Resources.withdraw, withdraw_withdraw hw.holder]
  have hholder' : ((h.run (others x wait)).next (.kill x)).resources.lock.holder =
      (h.run (others x wait)).resources.lock.holder := by
    rw [hkill, hholder, hw.resources]
    simp [Resources.withdraw, withdraw_of_ne hw.holder]
  have hm := hw.same.skip rfl (hw.part? rfl) (grant?_of_holder hholder)
  refine ⟨(hm.symm.skip rfl rfl (grant?_of_holder hholder')).symm, ?_⟩
  rw [run_concat, run_step_concat, hkill]

end CommandLog.Hub
