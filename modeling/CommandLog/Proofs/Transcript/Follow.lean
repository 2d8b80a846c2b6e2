import CommandLog.Proofs.Transcript.Copying

/-! # The transcript follows the store

Where sessions and ticks alone feed the log, only the holder of the lock can have a record to copy.
So the transcript is at most one record behind the store, and whenever the lock is free its file
holds every record appended so far, in the order of the store, those that were dropped included.
-/

namespace CommandLog

open FairLock Record

namespace Hub

variable {h h' : Hub} {ev : Event} {evs : List Event} {entry : Option Entry} {id : TaskId}
  {c : Nat} {past : List Entry} {written : List Record}

def copying? (h : Hub) (id : TaskId) : Option Record :=
  h.tasks[id]?.elim none Task.copying?

def appends (h : Hub) (ev : Event) : List Record :=
  (h.part? ev).elim [] fun e => e.deed.records h.resources

def appended (h : Hub) (evs : List Event) : List Record :=
  along appends h evs

theorem stake_of_copying? (hid : h.copying? id ≠ none) : h.stake id = .inside := by
  unfold copying? at hid
  cases ht : h.tasks[id]? with
  | none => simp [ht] at hid
  | some t => simpa [stake, ht] using Task.stake_of_copying? (t := t) (by simpa [ht] using hid)

theorem copying?_unique (hs : h.resources.lock.Serves h.stake) {i : TaskId}
    (hid : h.copying? id ≠ none) (hi : h.copying? i ≠ none) : i = id :=
  hs.exclusive (stake_of_copying? hi) (stake_of_copying? hid)

/-- The store holds the newest of the records written, and the transcript all of them but for the
one that a task is about to copy. -/
structure Copied (c : Nat) (past : List Entry) (written : List Record) (h : Hub) : Prop where
  capacity : h.resources.store.capacity = c
  store : h.resources.store.Holds (written.rtake c)
  level : (∀ id, h.copying? id = none) → h.resources.Transcribed (joined written)
  behind : ∀ id record, h.copying? id = some record →
    ∃ bs, h.resources.Transcribed bs ∧ joined written = bs ++ record.bytes
  kept : (∀ e ∈ past, e.answer.evicted = false) → written.length ≤ c

theorem Copied.spawn (hc : Copied c past written h) {t : Task} (hf : t.Fresh) :
    Copied c past written { h with tasks := h.tasks ++ [t] } := by
  have hk : copying? { h with tasks := h.tasks ++ [t] } = h.copying? :=
    elim_spawn hf.copying? h.tasks
  exact ⟨hc.capacity, hc.store, hk ▸ hc.level, hk ▸ hc.behind, hc.kept⟩

/-- While nothing is dropped, a deed of such a task leaves no more records than there are slots. -/
theorem Copied.kept_change (hc : Copied c past written h) {t t' : Task} {d : Option Deed}
    {r' : Resources} (ht : t.Copies) (hch : Task.Change id h.resources ev t d t' r')
    (he : ∀ e ∈ past ++ (d.map (.made id h.resources)).toList, e.answer.evicted = false) :
    (written ++ d.elim [] (·.records h.resources)).length ≤ c := by
  have hle := hc.kept fun e hp => he e (List.mem_append_left _ hp)
  cases d with
  | none => simpa using hle
  | some x =>
    rcases (hch.deed_copies ht).records with hx | ⟨record, hx, hflag⟩
    · rwa [Option.elim_some, hx, List.append_nil]
    · have hfull : h.resources.store.isFull = false := by
        rw [← hflag]
        exact he (.made id h.resources x) (by simp)
      have hne : written.length ≠ c := by
        intro heq
        have hlen : (written.rtake c).length = h.resources.store.capacity := by
          simp [List.rtake, heq, hc.capacity]
        exact absurd (hc.store.isFull_iff.mpr hlen) (by simp [hfull])
      rw [Option.elim_some, hx, List.length_append, List.length_singleton]
      omega

theorem Copied.change (hc : Copied c past written h) {t t' : Task} {d : Option Deed}
    {r' : Resources} (ht : h.tasks[id]? = some t) (htc : t.Copies)
    (hch : Task.Change id h.resources ev t d t' r')
    (hk : ev = .kill id → h.copying? id = none) (hs : h.resources.lock.Serves h.stake)
    (hs' : r'.lock.Serves (h.put id (t', r')).stake) :
    Copied c (past ++ (d.map (.made id h.resources)).toList)
      (written ++ d.elim [] (·.records h.resources)) (h.put id (t', r')) := by
  have htask : h.copying? id = t.copying? := by simp [copying?, ht]
  have hput : (h.put id (t', r')).copying? = Function.update h.copying? id t'.copying? :=
    elim_put ht t' r' none Task.copying?
  have hkept := hc.kept_change htc hch
  have hstep := hch.copying htc (htask ▸ hk)
  generalize hx : t.copying? = x, hx' : t'.copying? = x', d.elim [] (·.records h.resources) = rs
    at hstep hkept ⊢
  cases hstep with
  | keep hstore hfile =>
    have hsame : (h.put id (t', r')).copying? = h.copying? := by
      rw [hput, hx', ← hx, ← htask, Function.update_eq_self]
    rw [List.append_nil] at hkept ⊢
    refine ⟨hstore ▸ hc.capacity, hstore ▸ hc.store, ?_, ?_, hkept⟩
    · exact fun hn => (hc.level (hsame ▸ hn)).congr hfile
    · intro i record hr
      obtain ⟨bs, hbs, hj⟩ := hc.behind i record (hsame ▸ hr)
      exact ⟨bs, hbs.congr hfile, hj⟩
  | @append record _ hstore hfile =>
    have hid : (h.put id (t', r')).copying? id = some record := by
      rw [hput, Function.update_self, hx']
    -- the lock keeps everyone else from having something to copy
    have hnone : ∀ i, h.copying? i = none := by
      intro i
      by_cases hi : i = id
      · rw [hi, htask, hx]
      · by_contra hne
        have hne' : (h.put id (t', r')).copying? i ≠ none := by
          rwa [hput, Function.update_of_ne hi]
        exact hi (copying?_unique hs' (hid ▸ Option.some_ne_none record) hne')
    refine ⟨?_, ?_, fun hn => ?_, ?_, hkept⟩
    · exact (congrArg Store.capacity hstore).trans ((Store.capacity_append ..).trans hc.capacity)
    · have happend := hc.store.append record
      rw [hc.capacity, Store.rtake_concat_rtake] at happend
      exact hstore ▸ happend
    · cases hid.symm.trans (hn id)
    · intro i record' hr
      by_cases hi : i = id
      · subst hi
        obtain rfl : record = record' := Option.some.inj (hid.symm.trans hr)
        exact ⟨_, (hc.level hnone).congr hfile, by simp⟩
      · rw [hput, Function.update_of_ne hi, hnone] at hr
        cases hr
  | @copy record _ hstore hfile =>
    obtain ⟨bs, hbs, hj⟩ := hc.behind id record (htask.trans hx)
    have hnone : ∀ i, (h.put id (t', r')).copying? i = none := by
      intro i
      rw [hput]
      by_cases hi : i = id
      · rw [hi, Function.update_self, hx']
      · rw [Function.update_of_ne hi]
        by_contra hne
        exact hi (copying?_unique hs (by simp [htask, hx]) hne)
    rw [List.append_nil] at hkept ⊢
    refine ⟨hstore ▸ hc.capacity, hstore ▸ hc.store, fun _ => ?_, ?_, hkept⟩
    · exact hj ▸ (hbs.transcribe record).congr hfile
    · intro i record' hr
      cases (hnone i).symm.trans hr

theorem Result.copied (hr : h.Result ev entry h') (hp : ev.Proper)
    (ht : ∀ (id : TaskId) (t : Task), h.tasks[id]? = some t → t.Copies)
    (hk : ∀ id, ev = .kill id → h.copying? id = none)
    (hs : h.resources.lock.Serves h.stake) (hc : Copied c past written h) :
    Copied c (past ++ entry.toList)
      (written ++ entry.elim [] fun e => e.deed.records h.resources) h' := by
  have hs' := hr.serves hp hs
  cases hr with
  | spawn t => simpa using hc.spawn hp
  | elapse ms =>
    simp only [Option.toList_none, Option.elim_none, List.append_nil]
    exact ⟨hc.capacity, hc.store, hc.level, hc.behind, hc.kept⟩
  | nothing => simpa using hc
  | @change _ i t t' d r' hi hch =>
    have he : (d.map (Entry.made i h.resources)).elim [] (fun e => e.deed.records h.resources) =
        d.elim [] (·.records h.resources) := by
      cases d <;> rfl
    rw [he]
    exact hc.change hi (ht i t hi) hch (hk i) hs hs'

/-- No task is ended between its append and the end of its copy to the transcript. -/
def Spares (h : Hub) (evs : List Event) : Prop :=
  ∀ earlier id later, evs = earlier ++ .kill id :: later → (h.run earlier).copying? id = none

theorem run_copied (hs : h.Starts) (he : h.resources.store.toList = [])
    (ht : h.resources.Transcribed []) (hp : ∀ ev ∈ evs, ev.Proper)
    (hspawn : ∀ t, .spawn t ∈ evs → t.Copies) (hk : h.Spares evs) :
    Copied h.resources.store.capacity (h.history evs) (h.appended evs) (h.run evs) := by
  refine run_induction (P := fun evs => (∀ t, .spawn t ∈ evs → t.Copies) → h.Spares evs →
    Copied h.resources.store.capacity (h.history evs) (h.appended evs) (h.run evs))
    ?_ (fun evs ev hp hev ih hspawn hk => ?_) hp hspawn hk
  · intro _ _
    have hnone : ∀ id, (h.run []).copying? id = none := by
      intro id
      simp [run, copying?, hs.tasks]
    refine ⟨rfl, ?_, fun _ => ht, ?_, ?_⟩
    · obtain ⟨rs, hrs⟩ := hs.store
      obtain rfl : rs = [] := hrs.toList.symm.trans he
      simpa [run, appended, along, List.rtake] using hrs
    · intro id record hr
      cases (hnone id).symm.trans hr
    · exact fun _ => Nat.zero_le _
  · have hspawn' : ∀ t, .spawn t ∈ evs → t.Copies :=
      fun t ht => hspawn t (List.mem_append_left _ ht)
    rw [run_concat, history_concat, appended, along_concat]
    refine (next_result _ ev).copied hev (fun id t ht => ?_) ?_ (run_serves hs hp) (ih hspawn' ?_)
    · exact run_tasks hs hp (fun t ht _ => hspawn' t ht) Task.Change.copies ht
    · rintro id rfl
      exact hk evs id [] rfl
    · rintro earlier id later rfl
      exact hk earlier id (later ++ [ev]) (by simp)

structure Follows (h : Hub) (evs : List Event) : Prop where
  file : (h.run evs).resources.transcriptBytes = some (joined (h.appended evs))
  newest : (h.run evs).resources.store.toList =
    (h.appended evs).rtake h.resources.store.capacity
  suffix : (h.run evs).resources.store.readFrom 0 <:+ joined (h.appended evs)
  /-- As long as nothing is dropped, the file is the content. -/
  whole : (∀ e ∈ h.history evs, e.answer.evicted = false) →
    (h.run evs).resources.transcriptBytes = some ((h.run evs).resources.store.readFrom 0)

/-- Whenever the lock is free, the transcript that was created for a log without records holds
everything that sessions and ticks have appended to it since. -/
theorem run_follows {t : FileTree} {path : Path} {tr : Transcript} (hs : h.Starts)
    (he : h.resources.store.toList = []) (hsound : t.Sound)
    (hcreate : Transcript.create t path = (.ok tr, h.resources.tree))
    (hfile : ∃ n, tr.file.entry = .file n) (htr : h.resources.transcript = some tr)
    (hp : ∀ ev ∈ evs, ev.Proper) (hspawn : ∀ t, .spawn t ∈ evs → t.Copies)
    (hk : h.Spares evs) (hfree : (h.run evs).resources.lock.isFree = true) :
    h.Follows evs := by
  have hc := run_copied hs he ⟨tr, htr, Transcript.create_holds hsound hcreate hfile⟩ hp hspawn hk
  have hnone : ∀ id, (h.run evs).copying? id = none := by
    intro id
    by_contra hne
    have hholder := (run_serves hs hp).inside id (stake_of_copying? hne)
    simp [isFree, hholder] at hfree
  have hbytes := (hc.level hnone).transcriptBytes
  have hread : (h.run evs).resources.store.readFrom 0 =
      joined ((h.appended evs).rtake h.resources.store.capacity) := by
    rw [Store.Sound.readFrom ⟨_, hc.store⟩, List.drop_zero, hc.store.content]
  refine ⟨hbytes, hc.store.toList, ?_, fun hkept => ?_⟩
  · rw [hread]
    conv_rhs => rw [← List.take_append_drop
      ((h.appended evs).length - h.resources.store.capacity) (h.appended evs), joined_append]
    exact List.suffix_append _ _
  · rw [hbytes, hread, List.rtake, Nat.sub_eq_zero_of_le (hc.kept hkept), List.drop_zero]

/-- A log for one record, with a transcript that was just created. -/
def scribe : Hub where
  resources :=
    { store := .empty 1
      timeout := .ofSeconds 5
      tree := (Transcript.create .standard ⟨"/tmp/log"⟩).2
      transcript := some ⟨⟨"/tmp/log"⟩, ⟨.file 0, 0⟩⟩
      dial := fun _ => ⟨0, 0, 0⟩ }

def deaf : Session where
  wire := { arrivals := [.chunk [97, 10]], intake := { limit := some 0, refusal := .takeNothing } }
  reader := .ofInitial 2 none

/-- A session stores a record and cannot send its reply; a tick and another session, which is ended
while it replies, come after it. -/
def entries : List Event :=
  [.spawn (.session deaf), .spawn (.errand ⟨.tick (Timestamp.record ⟨0, 0, 0⟩), .fresh⟩),
    .spawn (.session (.opened [98, 10])), .step 0, .step 0, .step 1, .step 2, .step 2, .step 0,
    .step 0, .step 0, .step 1, .step 1, .step 2, .step 2, .kill 2]

theorem entries_follow :
    scribe.Starts ∧ Transcript.create .standard ⟨"/tmp/log"⟩ =
        (.ok ⟨⟨"/tmp/log"⟩, ⟨.file 0, 0⟩⟩, scribe.resources.tree) ∧
      scribe.Spares entries ∧ (scribe.run entries).resources.lock.isFree = true ∧
      scribe.appended entries = [⟨[97, 10]⟩, Timestamp.record ⟨0, 0, 0⟩, ⟨[98, 10]⟩] ∧
      (scribe.run entries).resources.store.toList = [⟨[98, 10]⟩] ∧ scribe.Follows entries := by
  have hs : scribe.Starts := ⟨rfl, rfl, ⟨[], Store.empty_holds (by decide)⟩⟩
  have he : scribe.resources.store.toList = [] := rfl
  have hc : Transcript.create .standard ⟨"/tmp/log"⟩ =
      (.ok ⟨⟨"/tmp/log"⟩, ⟨.file 0, 0⟩⟩, scribe.resources.tree) := by decide
  have hp : ∀ ev ∈ entries, ev.Proper := by
    have hdeaf : deaf.Fresh := ⟨rfl, ⟨_, _, rfl⟩, rfl, rfl⟩
    simp [entries, Event.Proper, Task.Fresh, hdeaf, Session.opened_fresh]
  have hspawn : ∀ t, .spawn t ∈ entries → t.Copies := by
    simp [entries, Task.Copies, Operation.Copies]
  have hk : scribe.Spares entries := by
    intro earlier id later h
    simp [entries, List.cons_eq_append_iff] at h
    obtain ⟨rfl, rfl, rfl⟩ := h
    rfl
  have hfree : (scribe.run entries).resources.lock.isFree = true := by rfl
  exact ⟨hs, hc, hk, hfree, by rfl, by rfl,
    run_follows hs he FileTree.sound_standard hc ⟨0, rfl⟩ rfl hp hspawn hk hfree⟩

end Hub

end CommandLog
