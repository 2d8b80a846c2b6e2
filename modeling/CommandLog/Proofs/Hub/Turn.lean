import Mathlib.Data.List.Nodup
import Mathlib.Logic.Function.Basic
import CommandLog.FairLock

/-! # Turns at a lock

The holder of a lock and those who wait for it form one line. Every task that has asked for the
lock and has not left it stands in the line once, the one inside it at the front; asking joins the
line at its end, and whoever leaves lets the next one in. If no task asks a second time, the lock
goes to each task at most once.
-/

namespace CommandLog.FairLock

inductive Stake where
  | out
  /-- It has asked for the lock and may have it. -/
  | asked
  /-- It has the lock and knows it. -/
  | inside
  deriving DecidableEq

variable {l l' : FairLock} {id : TaskId} {stake : TaskId → Stake} {k k' : Stake}
  {takers : List TaskId}

def line (l : FairLock) : List TaskId :=
  l.holder.toList ++ l.waiters

/-- The line of the lock is made of the tasks that have asked for it, and nobody else. -/
structure Serves (l : FairLock) (stake : TaskId → Stake) : Prop where
  idle : l.holder = none → l.waiters = []
  nodup : l.line.Nodup
  mem_line : ∀ id, id ∈ l.line ↔ stake id ≠ .out
  inside : ∀ id, stake id = .inside → l.holder = some id

/-- What one step of a task does to a lock and to its own stake in it. -/
inductive Turn (id : TaskId) (l : FairLock) : Stake → FairLock → Stake → Prop where
  | keep {k : Stake} : Turn id l k l k
  | ask : Turn id l .out (l.request id) .asked
  | enter : l.holder = some id → Turn id l .asked l .inside
  | release {k : Stake} : (k = .inside ∨ k = .asked ∧ l.holder = some id) →
      Turn id l k l.release .out
  | withdraw {k : Stake} : Turn id l k (l.withdraw id) .out

theorem serves_free : Serves {} fun _ => .out where
  idle _ := rfl
  nodup := List.nodup_nil
  mem_line id := by simp [line]
  inside id h := by cases h

theorem Serves.exclusive (h : l.Serves stake) {id id' : TaskId} (hi : stake id = .inside)
    (hi' : stake id' = .inside) : id = id' :=
  Option.some.inj ((h.inside id hi).symm.trans (h.inside id' hi'))

theorem Serves.holder_asked (h : l.Serves stake) (hh : l.holder = some id) : stake id ≠ .out :=
  (h.mem_line id).mp (by simp [line, hh])

theorem Serves.line_request (h : l.Serves stake) : (l.request id).line = l.line ++ [id] := by
  unfold request
  split
  case h_1 hh => simp [line, hh, h.idle hh]
  case h_2 => simp only [line, List.append_assoc]

theorem line_release (l : FairLock) : l.release.line = l.waiters := by
  unfold release
  split
  case h_1 hw => simp [line, hw]
  case h_2 hw => simp [line, hw]

theorem idle_release : l.release.holder = none → l.release.waiters = [] := by
  unfold release
  split
  case h_1 hw => exact fun _ => hw
  case h_2 => exact fun h => nomatch h

theorem Serves.line_withdraw (h : l.Serves stake) :
    (l.withdraw id).line = l.line.filter (· ≠ id) := by
  unfold withdraw
  split
  case isTrue hh =>
    have hn : id ∉ l.waiters := by
      have := h.nodup
      rw [line, hh] at this
      exact (List.nodup_cons.mp this).1
    rw [line_release, line, hh]
    have hf : l.waiters.filter (· ≠ id) = l.waiters :=
      List.filter_eq_self.mpr fun a ha => decide_eq_true fun he => hn (he ▸ ha)
    simpa using hf.symm
  case isFalse hh =>
    have hf : l.holder.toList.filter (· ≠ id) = l.holder.toList :=
      List.filter_eq_self.mpr fun a ha =>
        decide_eq_true fun he => hh (he ▸ Option.mem_toList.mp ha)
    rw [line, line, List.filter_append, hf]

theorem withdraw_eq_self (hid : id ∉ l.line) : l.withdraw id = l := by
  rw [line, List.mem_append, not_or, Option.mem_toList] at hid
  have hf : l.waiters.filter (· ≠ id) = l.waiters :=
    List.filter_eq_self.mpr fun a ha => decide_eq_true fun he => hid.2 (he ▸ ha)
  rw [withdraw, if_neg hid.1, hf]

theorem withdraw_request (hid : id ∉ l.line) (hh : l.holder ≠ none) :
    (l.request id).holder = l.holder ∧ (l.request id).withdraw id = l := by
  obtain ⟨holder, waiters⟩ := l
  cases holder with
  | none => exact absurd rfl hh
  | some i =>
    have hne : i ≠ id := fun he => hid (by simp [line, he])
    have hw : waiters.filter (· ≠ id) = waiters :=
      List.filter_eq_self.mpr fun a ha => decide_eq_true fun he => hid (by simp [line, ← he, ha])
    refine ⟨rfl, ?_⟩
    simp only [request, withdraw, Option.some.injEq, hne, if_false, List.filter_append, hw]
    simp

theorem Serves.request (h : l.Serves stake) (ho : stake id = .out) :
    (l.request id).Serves (Function.update stake id .asked) where
  idle hh := by
    unfold FairLock.request at hh
    split at hh <;> simp_all
  nodup := by
    rw [h.line_request]
    refine List.nodup_append.mpr ⟨h.nodup, by simp, ?_⟩
    rintro a ha _ (_ | ⟨_, ⟨⟩⟩) rfl
    exact (h.mem_line a).mp ha ho
  mem_line a := by
    rw [h.line_request]
    by_cases ha : a = id
    · simp [ha]
    · simp [ha, h.mem_line]
  inside a hi := by
    by_cases ha : a = id
    · subst ha; simp at hi
    · rw [Function.update_of_ne ha] at hi
      have hh := h.inside a hi
      simp [FairLock.request, hh]

theorem Serves.enter (h : l.Serves stake) (hh : l.holder = some id) :
    l.Serves (Function.update stake id .inside) where
  idle := h.idle
  nodup := h.nodup
  mem_line a := by
    by_cases ha : a = id
    · subst ha; simp [line, hh]
    · simp [ha, h.mem_line]
  inside a hi := by
    by_cases ha : a = id
    · exact ha ▸ hh
    · exact h.inside a (by rwa [Function.update_of_ne ha] at hi)

theorem Serves.withdraw (h : l.Serves stake) :
    (l.withdraw id).Serves (Function.update stake id .out) where
  idle hh := by
    unfold FairLock.withdraw at hh ⊢
    split
    · exact idle_release (by simpa [*] using hh)
    · simp_all [h.idle]
  nodup := by
    rw [h.line_withdraw]
    exact h.nodup.filter _
  mem_line a := by
    rw [h.line_withdraw]
    by_cases ha : a = id
    · simp [ha]
    · simp [ha, h.mem_line]
  inside a hi := by
    by_cases ha : a = id
    · subst ha; simp at hi
    · rw [Function.update_of_ne ha] at hi
      have hh := h.inside a hi
      simp [FairLock.withdraw, hh, ha]

/-- To give the lock back is to leave the line at its front. -/
theorem Serves.release_eq_withdraw (h : l.Serves stake)
    (hr : stake id = .inside ∨ stake id = .asked ∧ l.holder = some id) :
    l.release = l.withdraw id :=
  (if_pos (hr.elim (h.inside id) (·.2))).symm

theorem Serves.turn (h : l.Serves stake) (ht : Turn id l (stake id) l' k') :
    l'.Serves (Function.update stake id k') := by
  generalize hk : stake id = k at ht
  cases ht with
  | keep => rwa [← hk, Function.update_eq_self]
  | ask => exact h.request hk
  | enter hh => exact h.enter hh
  | release hr => exact h.release_eq_withdraw (hk ▸ hr) ▸ h.withdraw
  | withdraw => exact h.withdraw

theorem Serves.asked_of_turn (h : l.Serves stake) (ht : Turn id l (stake id) l' .asked)
    (hh : l.holder = some id) : stake id = .asked := by
  generalize hk : stake id = k at ht
  cases ht with
  | keep => rfl
  | ask => exact absurd hk (h.holder_asked hh)

theorem Serves.holder_of_turn (h : l.Serves stake) (ht : Turn id l (stake id) l' k') {i : TaskId}
    (hi : i ≠ id) (hh : l.holder = some i) : l'.holder = some i := by
  have hne : l.holder ≠ some id := fun he => hi (Option.some.inj (hh.symm.trans he))
  generalize hk : stake id = k at ht
  cases ht with
  | keep => exact hh
  | ask => simp [FairLock.request, hh]
  | enter => exact hh
  | release hr => exact absurd (hr.elim (fun hk' => h.inside id (hk.trans hk')) (·.2)) hne
  | withdraw => simpa [FairLock.withdraw, hne] using hh

/-- The task that a lock goes to when it changes hands. -/
def granted (l l' : FairLock) : List TaskId :=
  if l'.holder = l.holder then [] else l'.holder.toList

@[simp] theorem granted_self (l : FairLock) : l.granted l = [] :=
  if_pos rfl

theorem mem_granted : id ∈ l.granted l' → l'.holder = some id := by
  unfold granted
  split
  · exact fun h => nomatch h
  · exact Option.mem_toList.mp

/-- The tasks that a lock has gone to, in order: its holder came last, and whoever waits is still to
come. -/
structure Taken (l : FairLock) (takers : List TaskId) : Prop where
  nodup : takers.Nodup
  latest : ∀ id, l.holder = some id → takers.getLast? = some id
  waiting : ∀ id ∈ l.waiters, id ∉ takers

theorem taken_free : Taken {} [] where
  nodup := List.nodup_nil
  latest _ h := nomatch h
  waiting _ h := nomatch h

theorem Taken.keep (h : l.Taken takers) : l.Taken (takers ++ l.granted l) := by
  rwa [granted_self, List.append_nil]

theorem Taken.request (h : l.Taken takers) (hs : l.Serves stake) (hn : id ∉ takers) :
    (l.request id).Taken (takers ++ l.granted (l.request id)) := by
  cases hh : l.holder with
  | none =>
    have hw := hs.idle hh
    have he : l.request id = { l with holder := some id } := by simp [FairLock.request, hh]
    rw [he, granted, hh, if_neg (by simp)]
    exact ⟨by simpa using h.nodup.concat hn, by simp, by simp [hw]⟩
  | some i =>
    have he : l.request id = { l with waiters := l.waiters ++ [id] } := by
      simp [FairLock.request, hh]
    rw [he, granted, if_pos rfl, List.append_nil]
    refine ⟨h.nodup, h.latest, fun j hj => ?_⟩
    rcases List.mem_append.mp hj with hj | hj
    · exact h.waiting j hj
    · exact List.mem_singleton.mp hj ▸ hn

theorem Taken.withdraw (h : l.Taken takers) (hs : l.Serves stake) (id : TaskId) :
    (l.withdraw id).Taken (takers ++ l.granted (l.withdraw id)) := by
  by_cases hh : l.holder = some id
  · have hnodup := hs.nodup
    rw [line, hh] at hnodup
    obtain ⟨hid, hnodup⟩ := List.nodup_cons.mp hnodup
    rw [FairLock.withdraw, if_pos hh, release]
    cases hw : l.waiters with
    | nil =>
      simp only [granted, hh, reduceCtorEq, if_false, Option.toList_none, List.append_nil]
      exact ⟨h.nodup, nofun, nofun⟩
    | cons j rest =>
      -- the first waiter is another task, and it has not had the lock
      have hj : j ∉ takers := h.waiting j (hw ▸ List.mem_cons_self)
      have hne : j ≠ id := by
        rintro rfl
        exact hid (hw ▸ List.mem_cons_self)
      simp only [granted, hh, Option.some.injEq, hne, if_false, Option.toList_some]
      refine ⟨by simpa using h.nodup.concat hj, by simp, fun i hi => ?_⟩
      rw [List.mem_append, List.mem_singleton, not_or]
      refine ⟨h.waiting i (hw ▸ List.mem_cons_of_mem _ hi), ?_⟩
      rintro rfl
      exact (List.nodup_cons.mp (hw ▸ hnodup)).1 hi
  · rw [FairLock.withdraw, if_neg hh, granted, if_pos rfl, List.append_nil]
    exact ⟨h.nodup, h.latest, fun i hi => h.waiting i (List.mem_filter.mp hi).1⟩

theorem Taken.turn (h : l.Taken takers) (hs : l.Serves stake)
    (ht : Turn id l (stake id) l' k') (ha : stake id = .out → k' ≠ .out → id ∉ takers) :
    l'.Taken (takers ++ l.granted l') := by
  generalize hk : stake id = k at ht
  cases ht with
  | keep | enter => exact h.keep
  | ask => exact h.request hs (ha hk (by decide))
  | release hr => exact hs.release_eq_withdraw (hk ▸ hr) ▸ h.withdraw hs id
  | withdraw => exact h.withdraw hs id

end CommandLog.FairLock
