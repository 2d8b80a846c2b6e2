import Mathlib.Data.Nat.Nth
import CommandLog.Proofs.Hub.Parallel

/-! # Slow senders

A session whose stream brings neither a newline nor an end stays away from the lock, whatever else
comes in and however it ends. So a run with any number of such sessions is the run without them: the
other tasks do and answer the same, up to the numbers of the tasks.
-/

namespace CommandLog

def Arrival.Trickles : Arrival → Prop
  | chunk bs => bs ≠ [] ∧ newline ∉ bs
  | _ => True

/-- The stream brings neither a newline nor an end. -/
structure Wire.Trickles (w : Wire) : Prop where
  arrivals : ∀ a ∈ w.arrivals, a.Trickles
  endless : w.ends = false

namespace Wire.Trickles

variable {w : Wire} {room : Nat}

inductive Read (w : Wire) (room : Nat) : Reading × Wire → Prop where
  | bytes {bs : Bytes} {w' : Wire} : bs ≠ [] → newline ∉ bs → bs.length ≤ room → w'.Trickles →
      Read w room (.bytes bs, w')
  | failure {cause : IoError} {w' : Wire} : Read w room (.failure cause, w')
  | pause {w' : Wire} : w'.Trickles → Read w room (.pause, w')
  | wait : Read w room (.wait, w)

theorem read (h : w.Trickles) (hr : 0 < room) : Read w room (w.read room) := by
  obtain ⟨ha, he⟩ := h
  match hw : w.arrivals with
  | [] =>
    simp only [Wire.read, hw, he]
    exact .wait
  | .failure cause :: rest =>
    simp only [Wire.read, hw]
    exact .failure
  | .pause :: rest =>
    simp only [Wire.read, hw]
    exact .pause ⟨fun a hm => ha a (hw ▸ List.mem_cons_of_mem _ hm), he⟩
  | .chunk bs :: rest =>
    obtain ⟨hne, hn⟩ : bs ≠ [] ∧ newline ∉ bs := ha (.chunk bs) (hw ▸ List.mem_cons_self)
    have hrest : ∀ a ∈ rest, a.Trickles := fun a hm => ha a (hw ▸ List.mem_cons_of_mem _ hm)
    simp only [Wire.read, hw]
    split
    case isTrue hle => exact .bytes hne hn hle ⟨hrest, he⟩
    case isFalse hlt =>
      have htake : bs.take room ≠ [] := by simp [hne, hr.ne']
      have hdrop : bs.drop room ≠ [] := by simpa using hlt
      refine .bytes htake (fun hm => hn (List.mem_of_mem_take hm)) (by simp) ⟨?_, he⟩
      rintro a (_ | ⟨_, hm⟩)
      · exact ⟨hdrop, fun hm => hn (List.mem_of_mem_drop hm)⟩
      · exact hrest a hm

theorem feed (h : w.Trickles) {as : List Arrival} {ends : Option Bool}
    (ha : ∀ a ∈ as, a.Trickles) (he : ends ≠ some true) : (w.feed as ends).Trickles where
  arrivals a hm := (List.mem_append.mp hm).elim (h.arrivals a) (ha a)
  endless := by
    cases ends with
    | none => exact h.endless
    | some b => simpa [Wire.feed] using he

end Wire.Trickles

namespace Session

variable {s s' : Session} {id : TaskId} {r r' : Resources}

/-- The session has no record yet and will have none, or it is at its end. -/
def Aloof (s : Session) : Prop :=
  match s.stage with
  | .reading => s.wire.Trickles ∧ newline ∉ s.reader.buffer ∧ s.reader.Sound
  | .closing _ | .closed _ | .killed => True
  | _ => False

theorem Fresh.aloof (h : s.Fresh) (hw : s.wire.Trickles) : s.Aloof := by
  obtain ⟨initial, limit, hr⟩ := h.reader
  simp only [Aloof, h.reading, hr]
  exact ⟨hw, List.not_mem_nil, LineReader.ofInitial_sound initial limit⟩

theorem Aloof.receive? (hw : s.wire.Trickles) (hn : newline ∉ s.reader.buffer)
    (hr : s.reader.Sound) (hs : s.stage = .reading) (h : s.receive? id r = some (s', r')) :
    s'.Aloof ∧ r' = r := by
  unfold Session.receive? at h
  generalize hp : s.reader.poll = d at h
  cases hp ▸ s.reader.polled with
  | line hf | overlong hf =>
    rw [Bytes.firstLine?_eq_none_iff.mpr hn] at hf
    cases hf
  | overfull | unaffordable =>
    obtain ⟨rfl, rfl⟩ := Prod.mk.inj (Option.some.inj h)
    exact ⟨trivial, rfl⟩
  | @bytes capacity _ _ hc =>
    have hlt : s.reader.buffered < capacity := hc hr
    dsimp only at h
    generalize hx : s.wire.read (capacity - s.reader.buffered) = x at h
    cases hx ▸ hw.read (Nat.sub_pos_of_lt hlt) with
    | @bytes bs w' hne hnew hle hw' =>
      obtain ⟨b, bs, rfl⟩ := List.exists_cons_of_ne_nil hne
      obtain ⟨rfl, rfl⟩ := Prod.mk.inj (Option.some.inj h)
      refine ⟨?_, rfl⟩
      simp only [Aloof, hs]
      refine ⟨hw', ?_, ?_, hr.initial_pos⟩
      · rw [LineReader.take, List.mem_append, not_or]
        exact ⟨hn, hnew⟩
      · simp only [LineReader.buffered, LineReader.take, List.length_append] at hle hlt ⊢
        omega
    | failure =>
      obtain ⟨rfl, rfl⟩ := Prod.mk.inj (Option.some.inj h)
      exact ⟨trivial, rfl⟩
    | pause hw' =>
      obtain ⟨rfl, rfl⟩ := Prod.mk.inj (Option.some.inj h)
      refine ⟨?_, rfl⟩
      simp only [Aloof, hs]
      exact ⟨hw', hn, hlt.le, hr.initial_pos⟩
    | wait => cases h

/-- A step of such a session changes nothing but the session. -/
theorem Aloof.step? (ha : s.Aloof) (h : s.step? id r = some (s', r')) : s'.Aloof ∧ r' = r := by
  unfold Session.step? at h
  unfold Aloof at ha
  split at h
  case h_1 hs =>
    simp only [hs] at ha
    exact Aloof.receive? ha.1 ha.2.1 ha.2.2 hs h
  case h_6 =>
    obtain ⟨rfl, rfl⟩ := Prod.mk.inj (Option.some.inj h)
    exact ⟨trivial, rfl⟩
  case h_7 | h_8 => cases h
  all_goals simp [*] at ha

theorem Aloof.deed? (ha : s.Aloof) (id : TaskId) (r : Resources) : s.deed? id r = none := by
  refine deed?_eq_none fun request deadline hs => ?_
  simp [Aloof, hs] at ha

theorem Aloof.kill (ha : s.Aloof) (id : TaskId) (r : Resources) :
    (s.kill id r).1.Aloof ∧ ((s.kill id r).2 = r ∨ (s.kill id r).2 = r.withdraw id) := by
  unfold Session.kill
  split
  case h_1 | h_2 => exact ⟨ha, .inl rfl⟩
  case h_3 => exact ⟨trivial, .inr rfl⟩

theorem Aloof.feed (ha : s.Aloof) {as : List Arrival} {ends : Option Bool}
    (has : ∀ a ∈ as, a.Trickles) (he : ends ≠ some true) :
    Aloof { s with wire := s.wire.feed as ends } := by
  unfold Aloof at ha ⊢
  split at ha
  case h_1 hs =>
    simp only [hs]
    exact ⟨ha.1.feed has he, ha.2⟩
  case h_5 => exact ha.elim
  all_goals simp only [*]

theorem Aloof.allow (ha : s.Aloof) (more : Option Nat) :
    Aloof { s with wire := s.wire.allow more } := by
  unfold Aloof at ha ⊢
  split at ha
  case h_1 hs =>
    simp only [hs]
    exact ⟨⟨ha.1.arrivals, ha.1.endless⟩, ha.2⟩
  case h_5 => exact ha.elim
  all_goals simp only [*]

end Session

namespace Hub

open FairLock

variable {h k : Hub} {X : Finset TaskId} {ev : Event} {evs : List Event} {id x : TaskId}

def Event.Trickles : Event → Prop
  | spawn t => ∃ s, t = .session s ∧ s.wire.Trickles
  | feed _ as ends => (∀ a ∈ as, a.Trickles) ∧ ends ≠ some true
  | _ => True

/-- The task that an event concerns; one that is added comes next in number. -/
def subject? (h : Hub) : Event → Option TaskId
  | .spawn _ => some h.tasks.length
  | ev => ev.task?

def Trickles (h : Hub) (X : Finset TaskId) (evs : List Event) : Prop :=
  ∀ earlier ev later, evs = earlier ++ ev :: later →
    ∀ x ∈ (h.run earlier).subject? ev, x ∈ X → ev.Trickles

@[simp] theorem trickles_nil (h : Hub) (X : Finset TaskId) : h.Trickles X [] := by
  rintro earlier ev later he
  cases earlier <;> cases he

theorem trickles_cons : h.Trickles X (ev :: evs) ↔
    (∀ x ∈ h.subject? ev, x ∈ X → ev.Trickles) ∧ (h.next ev).Trickles X evs := by
  constructor
  · intro ht
    refine ⟨ht [] ev evs rfl, ?_⟩
    rintro earlier ev' later rfl
    exact ht (ev :: earlier) ev' later rfl
  · rintro ⟨ht, ht'⟩ (_ | ⟨ev', earlier⟩) x later he
    · obtain ⟨rfl, rfl⟩ := List.cons.inj he
      exact ht
    · obtain ⟨rfl, rfl⟩ := List.cons.inj he
      exact ht' earlier x later rfl

/-- The number of a task when those of a set are not counted. -/
def rank (X : Finset TaskId) (id : TaskId) : TaskId :=
  Nat.count (· ∉ X) id

def kept (X : Finset TaskId) (h : Hub) (ev : Event) : List Event :=
  if (h.subject? ev).any (· ∈ X) then [] else [ev.rename (rank X)]

/-- The events of a run that concern no task of a set, with the others counted anew. -/
def without (h : Hub) (X : Finset TaskId) (evs : List Event) : List Event :=
  along (kept X) h evs

theorem without_concat (h : Hub) (X : Finset TaskId) (evs : List Event) (ev : Event) :
    h.without X (evs ++ [ev]) = h.without X evs ++ kept X (h.run evs) ev :=
  along_concat ..

noncomputable def unrank (X : Finset TaskId) (id : TaskId) : TaskId :=
  Nat.nth (· ∉ X) id

theorem infinite_compl (X : Finset TaskId) : (Set.ofPred fun id : TaskId => id ∉ X).Infinite :=
  X.finite_toSet.infinite_compl

theorem unrank_injective (X : Finset TaskId) : (unrank X).Injective :=
  Nat.nth_injective (infinite_compl X)

theorem unrank_not_mem (X : Finset TaskId) (id : TaskId) : unrank X id ∉ X :=
  Nat.nth_mem_of_infinite (infinite_compl X) id

theorem rank_unrank (X : Finset TaskId) (id : TaskId) : rank X (unrank X id) = id :=
  Nat.count_nth_of_infinite (infinite_compl X) id

theorem unrank_rank (hid : id ∉ X) : unrank X (rank X id) = id :=
  Nat.nth_count hid

theorem rank_succ (X : Finset TaskId) (id : TaskId) :
    rank X (id + 1) = if id ∈ X then rank X id else rank X id + 1 := by
  unfold rank
  rw [Nat.count_succ]
  by_cases hid : id ∈ X <;> simp [hid]

def Aloof (h : Hub) (x : TaskId) : Prop :=
  ∀ t, h.tasks[x]? = some t → ∃ s, t = .session s ∧ s.Aloof

theorem aloof_put (k : Hub) (x : TaskId) {s : Session} (hs : s.Aloof) (r : Resources) :
    (k.put x (.session s, r)).Aloof x := by
  intro t ht
  rcases task_put ht with ⟨-, rfl⟩ | ⟨hx, -⟩
  · exact ⟨s, rfl, hs⟩
  · exact absurd rfl hx

theorem Aloof.modify (hk : k.Aloof x) {u : Task → Task}
    (hu : ∀ s : Session, s.Aloof → ∃ s' : Session, u (.session s) = .session s' ∧ s'.Aloof) :
    Aloof { k with tasks := k.tasks.modify x u } x := by
  intro t ht
  rw [List.getElem?_modify_eq] at ht
  obtain ⟨t', ht', rfl⟩ := Option.map_eq_some_iff.mp ht
  obtain ⟨s, rfl, hs⟩ := hk t' ht'
  exact hu s hs

theorem Aloof.next (hk : k.Aloof x) (he : ev.task? = some x) (ht : ev.Trickles) :
    (k.next ev).Aloof x ∧ ((k.next ev).resources = k.resources ∨
      (k.next ev).resources = k.resources.withdraw x) := by
  cases ev with
  | spawn | elapse => cases he
  | step i =>
    obtain rfl : i = x := Option.some.inj he
    simp only [Hub.next, Hub.step?]
    cases hi : k.tasks[i]? with
    | none => exact ⟨hk, .inl rfl⟩
    | some t =>
      obtain ⟨s, rfl, hs⟩ := hk t hi
      simp only [Task.step?]
      cases hstep : s.step? i k.resources with
      | none => exact ⟨hk, .inl rfl⟩
      | some z =>
        obtain ⟨s', r'⟩ := z
        obtain ⟨hs', rfl⟩ := hs.step? hstep
        exact ⟨aloof_put k i hs' _, .inl rfl⟩
  | fire i =>
    obtain rfl : i = x := Option.some.inj he
    simp only [Hub.next]
    split
    case h_1 hi =>
      obtain ⟨s, hs, -⟩ := hk _ hi
      cases hs
    case h_2 => exact ⟨hk, .inl rfl⟩
  | kill i =>
    obtain rfl : i = x := Option.some.inj he
    simp only [Hub.next]
    split
    case h_1 t hi =>
      obtain ⟨s, rfl, hs⟩ := hk t hi
      obtain ⟨hs', hr⟩ := hs.kill i k.resources
      exact ⟨aloof_put k i hs' _, hr⟩
    case h_2 => exact ⟨hk, .inl rfl⟩
  | feed i as ends =>
    obtain rfl : i = x := Option.some.inj he
    exact ⟨hk.modify fun s hs => ⟨_, rfl, hs.feed ht.1 ht.2⟩, .inl rfl⟩
  | allow i more =>
    obtain rfl : i = x := Option.some.inj he
    exact ⟨hk.modify fun s hs => ⟨_, rfl, hs.allow more⟩, .inl rfl⟩
  | letGo i =>
    obtain rfl : i = x := Option.some.inj he
    simp only [Hub.next]
    split
    case h_1 hi =>
      obtain ⟨s, hs, -⟩ := hk _ hi
      cases hs
    case h_2 => exact ⟨hk, .inl rfl⟩
  | stop i =>
    obtain rfl : i = x := Option.some.inj he
    exact ⟨hk.modify fun s hs => ⟨s, rfl, hs⟩, .inl rfl⟩

theorem Aloof.part? (hk : k.Aloof x) (he : ev.task? = some x) : k.part? ev = none := by
  cases ev with
  | step i =>
    obtain rfl : i = x := Option.some.inj he
    simp only [Hub.part?]
    cases hi : k.tasks[i]? with
    | none => rfl
    | some t =>
      obtain ⟨s, rfl, hs⟩ := hk t hi
      simp [Task.deed?, hs.deed? i k.resources]
  | _ => rfl

/-- One hub is the other without the tasks of a set, all of which stay away from the lock. -/
structure Absent (X : Finset TaskId) (h k : Hub) : Prop where
  parallel : Parallel (rename (unrank X)) (rename (unrank X)) (unrank X) (fun _ => False) h k
  length : h.tasks.length = rank X k.tasks.length
  aloof : ∀ x ∈ X, k.Aloof x

theorem Absent.not_mem_line (ha : Absent X h k) (hx : x ∈ X) : x ∉ k.resources.lock.line := by
  have hl : k.resources.lock = h.resources.lock.rename (unrank X) :=
    congrArg Resources.lock ha.parallel.resources
  rw [hl, line_rename]
  intro hm
  obtain ⟨i, -, rfl⟩ := List.mem_map.mp hm
  exact unrank_not_mem X i hx

theorem Absent.hide (ha : Absent X h k) (hx : x ∈ X) (he : k.subject? ev = some x)
    (hp : ev.Proper) (ht : ev.Trickles) :
    Absent X h (k.next ev) ∧ k.part? ev = none ∧ k.grant? ev = none := by
  have htask : (∃ t, ev = .spawn t) ∨ ev.task? = some x := by
    cases ev with
    | spawn t => exact .inl ⟨t, rfl⟩
    | _ => exact .inr he
  rcases htask with ⟨t, rfl⟩ | htask
  · obtain ⟨s, rfl, hs⟩ := ht
    obtain rfl : k.tasks.length = x := Option.some.inj he
    have hgrant : k.grant? (.spawn (.session s)) = none := by simp [grant?, Hub.next]
    refine ⟨⟨⟨ha.parallel.resources, fun i hi => ?_⟩, ?_, fun x hx' t ht => ?_⟩, rfl, hgrant⟩
    · have hne : unrank X i ≠ k.tasks.length := fun h => unrank_not_mem X i (h ▸ hx)
      exact (getElem?_concat_of_ne _ _ hne).trans (ha.parallel.tasks i hi)
    · simp [Hub.next, rank_succ, hx, ha.length]
    · rcases task_spawn ht with ⟨-, rfl⟩ | ⟨-, ht⟩
      · exact ⟨s, rfl, Session.Fresh.aloof hp hs⟩
      · exact ha.aloof x hx' t ht
  · obtain ⟨haloof, hr⟩ := (ha.aloof x hx).next htask ht
    have hr : (k.next ev).resources = k.resources := by
      rcases hr with hr | hr
      · exact hr
      · rw [hr, Resources.withdraw, withdraw_eq_self (ha.not_mem_line hx)]
    refine ⟨⟨⟨hr.trans ha.parallel.resources, fun i hi => ?_⟩, ?_, fun y hy => ?_⟩,
      (ha.aloof x hx).part? htask, by simp [grant?, hr]⟩
    · have hne : unrank X i ≠ x := fun h => unrank_not_mem X i (h ▸ hx)
      rw [tasks_next_of_ne k htask hne]
      exact ha.parallel.tasks i hi
    · rw [length_next_of_task k htask]
      exact ha.length
    · by_cases hxy : y = x
      · exact hxy ▸ haloof
      · intro t ht
        rw [tasks_next_of_ne k htask hxy] at ht
        exact ha.aloof y hy t ht

theorem subject?_of_task? {i : TaskId} (he : ev.task? = some i) : k.subject? ev = some i := by
  cases ev with
  | spawn => cases he
  | _ => exact he

theorem Absent.keep (ha : Absent X h k) (he : ∀ x ∈ k.subject? ev, x ∉ X) :
    Absent X (h.next (ev.rename (rank X))) (k.next ev) ∧
      h.part? (ev.rename (rank X)) = (k.part? ev).map (Entry.rename (rank X)) ∧
      h.grant? (ev.rename (rank X)) = (k.grant? ev).map (rank X) := by
  have hσ := unrank_injective X
  have hev : (ev.rename (rank X)).rename (unrank X) = ev :=
    ev.rename_rename _ _ fun i hi => unrank_rank (he i (subject?_of_task? hi))
  have hshared : Shared (rename (unrank X)) (rename (unrank X)) (unrank X) (fun _ => False) h
      (ev.rename (rank X)) :=
    fun i _ => ⟨not_false, carries_rename hσ i _, fun l => carries_rename hσ i l⟩
  have hl : ∀ t, ev.rename (rank X) = .spawn t → k.tasks.length = unrank X h.tasks.length := by
    intro t ht
    cases ev with
    | spawn => rw [ha.length, unrank_rank (he _ rfl)]
    | _ => cases ht
  have hp := ha.parallel.next hσ hev hshared hl
  refine ⟨⟨hp, ?_, fun y hy t ht => ?_⟩, ?_, ?_⟩
  · cases ev with
    | spawn t => simp [Event.rename, Hub.next, rank_succ, he _ rfl, ha.length]
    | elapse => exact ha.length
    | _ =>
      rw [length_next_of_task k rfl, ← ha.length]
      exact length_next_of_task h rfl
  · cases ev with
    | spawn u =>
      rcases task_spawn ht with ⟨rfl, -⟩ | ⟨-, ht⟩
      · exact absurd hy (he _ rfl)
      · exact ha.aloof y hy t ht
    | elapse => exact ha.aloof y hy t ht
    | step i | fire i | kill i | feed i | allow i | letGo i | stop i =>
      have hne : y ≠ i := by
        rintro rfl
        exact he y rfl hy
      rw [tasks_next_of_ne k rfl hne] at ht
      exact ha.aloof y hy t ht
  · rw [ha.parallel.part? hev hshared, Option.map_map]
    simp [Entry.rename, Function.comp_def, rank_unrank]
  · rw [ha.parallel.grant? hp hσ rfl rfl, Option.map_map]
    simp [Function.comp_def, rank_unrank]

theorem Starts.absent (hs : h.Starts) (hd : ∀ d ∈ h.resources.devices, d.lock = {}) :
    Absent X h h where
  parallel := by
    refine ⟨?_, fun i _ => by simp [hs.tasks]⟩
    have hdevices : h.resources.devices =
        h.resources.devices.map fun d => { d with lock := d.lock.rename (unrank X) } := by
      refine (List.map_congr_left fun d hm => ?_).trans (List.map_id _) |>.symm
      obtain ⟨pending, lock⟩ := d
      obtain rfl : lock = {} := hd _ hm
      rfl
    have hlock : h.resources.lock = h.resources.lock.rename (unrank X) := by
      rw [hs.lock]
      rfl
    rw [Resources.relock, ← hdevices, ← hlock]
  length := by simp [hs.tasks, rank]
  aloof x _ t ht := by simp [hs.tasks] at ht

structure Ignores (h : Hub) (X : Finset TaskId) (evs : List Event) : Prop where
  aloof : ∀ x ∈ X, x ∉ (h.run evs).resources.lock.line
  resources : (h.run (h.without X evs)).resources =
    (h.run evs).resources.relock (rename (rank X)) (rename (rank X))
  tasks : ∀ id ∉ X, (h.run (h.without X evs)).tasks[rank X id]? = (h.run evs).tasks[id]?
  history : h.history (h.without X evs) = (h.history evs).map (Entry.rename (rank X))
  grants : h.grants (h.without X evs) = (h.grants evs).map (rank X)

theorem run_absent (hs : h.Starts) (hd : ∀ d ∈ h.resources.devices, d.lock = {})
    (hp : ∀ ev ∈ evs, ev.Proper) (ht : h.Trickles X evs) :
    Absent X (h.run (h.without X evs)) (h.run evs) ∧
      h.history (h.without X evs) = (h.history evs).map (Entry.rename (rank X)) ∧
      h.grants (h.without X evs) = (h.grants evs).map (rank X) := by
  refine run_induction (P := fun evs => h.Trickles X evs →
    Absent X (h.run (h.without X evs)) (h.run evs) ∧
      h.history (h.without X evs) = (h.history evs).map (Entry.rename (rank X)) ∧
      h.grants (h.without X evs) = (h.grants evs).map (rank X))
    ?_ (fun evs ev hp hev ih ht => ?_) hp ht
  · exact fun _ => ⟨hs.absent hd, rfl, rfl⟩
  · obtain ⟨ht, hlast⟩ := forall_split_concat.mp ht
    obtain ⟨ha, hh, hg⟩ := ih ht
    rw [without_concat, kept, run_concat, history_concat, grants_concat]
    split
    case isTrue hx =>
      obtain ⟨x, hsub, hx⟩ := (Option.any_eq_true _ _).mp hx
      obtain ⟨ha', hpart, hgrant⟩ := ha.hide (by simpa using hx) hsub hev
        (hlast x hsub (by simpa using hx))
      simpa [hpart, hgrant] using ⟨ha', hh, hg⟩
    case isFalse hx =>
      have hx' : ∀ x ∈ (h.run evs).subject? ev, x ∉ X := by
        intro x hsub hm
        exact hx ((Option.any_eq_true _ _).mpr ⟨x, hsub, by simpa using hm⟩)
      obtain ⟨ha', hpart, hgrant⟩ := ha.keep hx'
      rw [run_concat, history_concat, grants_concat]
      refine ⟨ha', ?_, ?_⟩
      · rw [hh, hpart, List.map_append]
        cases (h.run evs).part? ev <;> rfl
      · rw [hg, hgrant, List.map_append]
        cases (h.run evs).grant? ev <;> rfl

/-- Sessions that only trickle change nothing for the others and never stand in the line of the
lock, whatever comes to them but a newline or an end, and wherever they are ended. -/
theorem run_ignores (hs : h.Starts) (hd : ∀ d ∈ h.resources.devices, d.lock = {})
    (hp : ∀ ev ∈ evs, ev.Proper) (ht : h.Trickles X evs) : h.Ignores X evs := by
  obtain ⟨ha, hhistory, hgrants⟩ := run_absent hs hd hp ht
  refine ⟨fun x hx => ha.not_mem_line hx, ?_, fun id hid => ?_, hhistory, hgrants⟩
  · have hl : ∀ l : FairLock, (l.rename (unrank X)).rename (rank X) = l :=
      rename_rename _ _ (rank_unrank X)
    rw [ha.parallel.resources, Resources.relock_relock hl hl]
  · have htask := ha.parallel.tasks (rank X id) not_false
    rw [unrank_rank hid] at htask
    exact htask.symm

def trickler : Session where
  wire := { arrivals := [.chunk [97, 97]], ends := false }
  reader := .ofInitial 1 (some 8)

/-- A session that gets a byte now and then is ended; another stores a record in the meantime. -/
def trickling : List Event :=
  [.spawn (.session trickler), .spawn (.session (.opened [98, 10])), .step 0, .step 1,
    .feed 0 [.pause, .chunk [99]] none, .step 0, .step 1, .step 0, .step 1, .step 0, .kill 0,
    .step 1]

theorem trickling_ignored :
    (idle 2).Starts ∧ (∀ ev ∈ trickling, ev.Proper) ∧ (idle 2).Trickles {0} trickling ∧
      (idle 2).without {0} trickling =
        [.spawn (.session (.opened [98, 10])), .step 0, .step 0, .step 0, .step 0] ∧
      ((idle 2).run trickling).resources.store.toList = [⟨[98, 10]⟩] ∧
      (idle 2).Ignores {0} trickling := by
  have hs : (idle 2).Starts := idle_starts (by decide)
  have hd : ∀ d ∈ (idle 2).resources.devices, d.lock = {} := nofun
  have hp : ∀ ev ∈ trickling, ev.Proper := by
    have hf : trickler.Fresh := ⟨rfl, ⟨_, _, rfl⟩, rfl, rfl⟩
    simp [trickling, Event.Proper, Task.Fresh, hf, Session.opened_fresh]
  have hw : trickler.wire.Trickles := by
    refine ⟨?_, rfl⟩
    simp [trickler, Arrival.Trickles, newline]
  have ht : (idle 2).Trickles {0} trickling := by
    have hfed : newline ≠ 99 := by decide
    simp [trickling, trickles_cons, Event.Trickles, Arrival.Trickles, subject?, Hub.next, idle, hw,
      hfed]
  exact ⟨hs, hp, ht, by rfl, by rfl, run_ignores hs hd hp ht⟩

end Hub

end CommandLog
