import CommandLog.Proofs.Hub.Relock

/-! # Runs side by side

Two hubs are parallel if their tasks correspond, some of them apart, and they share the same but for
the locks. An event that concerns corresponding tasks does the same to both, and its deeds and
grants are the same, so that parallel runs cannot be told apart.
-/

namespace CommandLog.Hub

variable {f g : FairLock → FairLock} {σ : TaskId → TaskId} {apart : TaskId → Prop} {h k : Hub}
  {ev ev' : Event} {i : TaskId} {t : Task}

def Event.task? : Event → Option TaskId
  | .step id | .fire id | .kill id | .feed id _ _ | .allow id _ | .letGo id | .stop id => some id
  | .spawn _ | .elapse _ => none

def Event.rename (σ : TaskId → TaskId) : Event → Event
  | .step id => .step (σ id)
  | .fire id => .fire (σ id)
  | .spawn t => .spawn t
  | .kill id => .kill (σ id)
  | .elapse ms => .elapse ms
  | .feed id as ends => .feed (σ id) as ends
  | .allow id more => .allow (σ id) more
  | .letGo id => .letGo (σ id)
  | .stop id => .stop (σ id)

def Entry.rename (σ : TaskId → TaskId) (e : Entry) : Entry :=
  { e with task := σ e.task }

@[simp] theorem Event.rename_id (ev : Event) : ev.rename id = ev := by
  cases ev <;> rfl

theorem Event.rename_rename (ev : Event) (σ τ : TaskId → TaskId)
    (h : ∀ i ∈ ev.task?, σ (τ i) = i) : (ev.rename τ).rename σ = ev := by
  cases ev with
  | spawn | elapse => rfl
  | _ => simp [rename, h _ rfl]

theorem tasks_next_of_ne (h : Hub) (he : ev.task? = some i) {n : TaskId} (hn : n ≠ i) :
    (h.next ev).tasks[n]? = h.tasks[n]? := by
  have hr := h.next_result ev
  generalize h.next ev = h', h.part? ev = entry at hr ⊢
  cases hr with
  | spawn | elapse => cases he
  | nothing => rfl
  | @change _ m t t' d r' ht hc =>
    obtain rfl : m = i := by cases hc <;> exact Option.some.inj he
    simp [put, Ne.symm hn]

theorem task_next_of_ne (h : Hub) (hi : i < h.tasks.length) (he : ev.task? ≠ some i) :
    (h.next ev).tasks[i]? = h.tasks[i]? := by
  have hr := h.next_result ev
  generalize h.next ev = h', h.part? ev = entry at hr ⊢
  cases hr with
  | spawn => exact List.getElem?_append_left hi
  | elapse | nothing => rfl
  | @change _ m t t' d r' ht hc =>
    have hev : ev.task? = some m := by cases hc <;> rfl
    have hm : m ≠ i := fun hm => he (hm ▸ hev)
    simp [put, hm]

theorem length_next_of_task (h : Hub) (he : ev.task? = some i) :
    (h.next ev).tasks.length = h.tasks.length := by
  have hr := h.next_result ev
  generalize h.next ev = h', h.part? ev = entry at hr ⊢
  cases hr with
  | spawn | elapse => cases he
  | nothing => rfl
  | change => simp [put]

theorem length_next_congr (hl : k.tasks.length = h.tasks.length) (ev : Event) :
    (k.next ev).tasks.length = (h.next ev).tasks.length := by
  cases ev with
  | spawn => simp [next, hl]
  | elapse => exact hl
  | _ => rw [length_next_of_task k rfl, hl, length_next_of_task h rfl]

theorem getElem?_concat_of_ne {α : Type*} (xs : List α) (x : α) {n : Nat} (hn : n ≠ xs.length) :
    (xs ++ [x])[n]? = xs[n]? := by
  rcases Nat.lt_or_gt_of_ne hn with hlt | hgt
  · exact List.getElem?_append_left hlt
  · rw [List.getElem?_eq_none (by simp; omega), List.getElem?_eq_none hgt.le]

/-- The tasks of one hub are those of the other under new numbers, some of them apart, and the
shared state is the same but for the locks. -/
structure Parallel (f g : FairLock → FairLock) (σ : TaskId → TaskId) (apart : TaskId → Prop)
    (h k : Hub) : Prop where
  resources : k.resources = h.resources.relock f g
  tasks : ∀ i, ¬ apart i → k.tasks[σ i]? = h.tasks[i]?

/-- The event concerns a task of both hubs and does the same to related locks. -/
def Shared (f g : FairLock → FairLock) (σ : TaskId → TaskId) (apart : TaskId → Prop) (h : Hub)
    (ev : Event) : Prop :=
  ∀ i ∈ ev.task?, ¬ apart i ∧ h.resources.Carries f g i (σ i)

theorem Parallel.put (hp : Parallel f g σ apart h k) (hσ : σ.Injective) (hi : ¬ apart i)
    (ht : h.tasks[i]? = some t) (t' : Task) (r' : Resources) :
    Parallel f g σ apart (h.put i (t', r')) (k.put (σ i) (t', r'.relock f g)) where
  resources := rfl
  tasks j hj := by
    obtain ⟨hlt, -⟩ := List.getElem?_eq_some_iff.mp ht
    obtain ⟨hlt', -⟩ := List.getElem?_eq_some_iff.mp ((hp.tasks i hi).trans ht)
    rw [Hub.put, Hub.put, List.getElem?_set, List.getElem?_set, hp.tasks j hj]
    simp [hσ.eq_iff, hlt, hlt']

theorem Parallel.modify (hp : Parallel f g σ apart h k) (hσ : σ.Injective) (i : TaskId)
    (u : Task → Task) :
    Parallel f g σ apart { h with tasks := h.tasks.modify i u }
      { k with tasks := k.tasks.modify (σ i) u } where
  resources := hp.resources
  tasks j hj := by
    simp only [List.getElem?_modify, hp.tasks j hj, hσ.eq_iff]

theorem Parallel.spawn (hp : Parallel f g σ apart h k) (hσ : σ.Injective)
    (hl : k.tasks.length = σ h.tasks.length) (t : Task) :
    Parallel f g σ apart { h with tasks := h.tasks ++ [t] } { k with tasks := k.tasks ++ [t] } where
  resources := hp.resources
  tasks j hj := by
    by_cases he : j = h.tasks.length
    · simp [he, ← hl]
    · have hne : σ j ≠ k.tasks.length := fun h => he (hσ (h.trans hl))
      exact (getElem?_concat_of_ne _ t hne).trans
        ((hp.tasks j hj).trans (getElem?_concat_of_ne _ t he).symm)

/-- Parallel hubs go on side by side. -/
theorem Parallel.next (hp : Parallel f g σ apart h k) (hσ : σ.Injective)
    (hev : ev.rename σ = ev') (he : Shared f g σ apart h ev)
    (hl : ∀ t, ev = .spawn t → k.tasks.length = σ h.tasks.length) :
    Parallel f g σ apart (h.next ev) (k.next ev') := by
  subst hev
  cases ev with
  | step i =>
    obtain ⟨hi, hc⟩ := he i rfl
    simp only [Event.rename, Hub.next, Hub.step?, hp.tasks i hi, hp.resources]
    cases ht : h.tasks[i]? with
    | none => exact hp
    | some t =>
      simp only [Task.step?_relock t hc]
      cases t.step? i h.resources with
      | none => exact hp
      | some x => exact hp.put hσ hi ht x.1 x.2
  | fire i =>
    obtain ⟨hi, -⟩ := he i rfl
    simp only [Event.rename, Hub.next, hp.tasks i hi, hp.resources]
    split
    case h_1 t ht =>
      have hf : t.fire? (h.resources.relock f g) = t.fire? h.resources := rfl
      rw [hf]
      split
      · exact hp.put hσ hi ht _ _
      · exact hp
    case h_2 => exact hp
  | spawn t => exact hp.spawn hσ (hl t rfl) t
  | kill i =>
    obtain ⟨hi, hc⟩ := he i rfl
    simp only [Event.rename, Hub.next, hp.tasks i hi, hp.resources]
    split
    case h_1 t ht =>
      rw [Task.kill_relock t hc]
      exact hp.put hσ hi ht _ _
    case h_2 => exact hp
  | elapse ms => exact ⟨by simp only [Event.rename, Hub.next, hp.resources]; rfl, hp.tasks⟩
  | feed i as ends => exact hp.modify hσ i _
  | allow i more => exact hp.modify hσ i _
  | letGo i =>
    obtain ⟨hi, hc⟩ := he i rfl
    simp only [Event.rename, Hub.next, hp.tasks i hi, hp.resources]
    split
    case h_1 e ht =>
      rw [Errand.letGo_relock e hc]
      exact hp.put hσ hi ht _ _
    case h_2 => exact hp
  | stop i => exact hp.modify hσ i _

theorem Parallel.part? (hp : Parallel f g σ apart h k) (hev : ev.rename σ = ev')
    (he : Shared f g σ apart h ev) : k.part? ev' = (h.part? ev).map (Entry.rename σ) := by
  subst hev
  cases ev with
  | step i =>
    obtain ⟨hi, hc⟩ := he i rfl
    simp only [Event.rename, Hub.part?, hp.tasks i hi, hp.resources]
    cases h.tasks[i]? with
    | none => rfl
    | some t =>
      simp only [Option.bind_some, Task.deed?_relock t hc, Option.map_map]
      cases t.deed? i h.resources with
      | none => rfl
      | some d =>
        obtain ⟨ha, -⟩ := d.act_congr (h.resources.ledger_relock f g)
        simp [Entry.made, Entry.rename, ha]
  | _ => rfl

theorem Parallel.grant? (hp : Parallel f g σ apart h k)
    (hp' : Parallel f g σ apart (h.next ev) (k.next ev')) (hσ : σ.Injective)
    (hh : (f h.resources.lock).holder = h.resources.lock.holder.map σ)
    (hh' : (f (h.next ev).resources.lock).holder = (h.next ev).resources.lock.holder.map σ) :
    k.grant? ev' = (h.grant? ev).map σ := by
  have hk : k.resources.lock.holder = h.resources.lock.holder.map σ := by
    rw [hp.resources]
    exact hh
  have hk' : (k.next ev').resources.lock.holder =
      (h.next ev).resources.lock.holder.map σ := by
    rw [hp'.resources]
    exact hh'
  simp only [Hub.grant?, hk, hk', (Option.map_injective hσ).eq_iff]
  split <;> rfl

end CommandLog.Hub
