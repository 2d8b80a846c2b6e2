import CommandLog.Proofs.Device.Stream
import CommandLog.Proofs.Framing.Frames
import CommandLog.Proofs.Session.Atomicity
import CommandLog.Proofs.Timestamp

/-! # Every record is one line

Sessions store first lines, devices cut their streams into lines, and time records are lines. So a
log that is fed by these alone holds lines and nothing else at any time, and no newline is pending
on a device. Its content, read as a stream, gives back the records one by one.
-/

namespace CommandLog

open Bytes

namespace Store

variable {s : Store} {record : Record}

theorem Sound.mem_append {r : Record} (h : s.Sound) (hr : record ∈ (s.append r).1.toList) :
    record ∈ s.toList ∨ record = r := by
  obtain ⟨rs, h⟩ := h
  rw [(h.append r).toList] at hr
  rw [h.toList]
  rcases List.mem_append.mp (List.mem_of_mem_drop hr) with hr | hr
  · exact .inl hr
  · exact .inr (List.mem_singleton.mp hr)

theorem Sound.mem_appendAll (h : s.Sound) {rs : List Record}
    (hr : record ∈ (s.appendAll rs).toList) : record ∈ s.toList ∨ record ∈ rs := by
  induction rs using List.reverseRecOn with
  | nil => exact .inl hr
  | append_singleton rs r ih =>
    rw [Store.appendAll, List.foldl_append] at hr
    rcases (h.appendAll rs).mem_append hr with hr | rfl
    · exact (ih hr).imp_right (List.mem_append_left _)
    · exact .inr (List.mem_append_right _ (List.mem_singleton_self _))

theorem Sound.toList_clear (h : s.Sound) : s.clear.toList = [] :=
  let ⟨_, h⟩ := h; h.clear.toList

end Store

/-- Every record is a line, and no newline is pending on a device. -/
structure Resources.Lined (r : Resources) : Prop where
  records : ∀ record ∈ r.store.toList, record.bytes.IsLine
  pending : ∀ d, newline ∉ (r.device d).pending

theorem Resources.Lined.congr {r r' : Resources} (h : r.Lined) (hl : r'.ledger = r.ledger) :
    r'.Lined where
  records := by
    rw [store_congr hl]
    exact h.records
  pending d := by
    rw [pending_device, hl, ← pending_device]
    exact h.pending d

def Operation.Lined : Operation → Prop
  | append record | tick record => record.bytes.IsLine
  | _ => True

namespace Deed

variable {r : Resources} {d : Deed} {record : Record}

theorem isLine_of_mem_records {op : Operation} (h : r.Lined) (ho : op.Lined)
    (hr : record ∈ (errand op).records r) : record.bytes.IsLine := by
  cases op with
  | append record' | tick record' =>
    obtain rfl := List.mem_singleton.mp hr
    exact ho
  | write n data =>
    simp only [records, Device.assemble_eq (h.pending _)] at hr
    obtain ⟨l, hl, rfl⟩ := List.mem_map.mp hr
    exact isLine_of_mem_lines hl
  | _ => cases hr

/-- A deed whose records are lines leaves nothing but lines, and nothing pending but rests. -/
theorem lined_act (hs : r.store.Sound) (h : r.Lined)
    (hd : ∀ record ∈ d.records r, record.bytes.IsLine) : (d.act r).2.Lined where
  records record hr := by
    rw [store_act] at hr
    split at hr
    · rw [hs.toList_clear] at hr
      cases hr
    · exact (hs.mem_appendAll hr).elim (h.records record) (hd record)
  pending := newline_not_mem_pending h.pending d

end Deed

/-- A record that is asked to be stored is a line within the limit and no directive. -/
theorem Session.Requested.isLine {limit : Option Nat} {script : Bytes} {record : Record}
    (h : Requested limit script (.append record)) :
    record.bytes.IsLine ∧ (∀ m ∈ limit, record.length ≤ m) ∧
      Directive.parse? record.bytes = none := by
  obtain ⟨l, rest, hl, hm, hc⟩ := h
  obtain ⟨rfl, hp⟩ := Hub.append_eq_ofRecord hc
  obtain ⟨body, hn, rfl, -⟩ := firstLine?_eq_some_iff.mp hl
  exact ⟨⟨body, hn, rfl⟩, hm, hp⟩

namespace Task

variable {ev : Hub.Event} {t t' : Task} {id : TaskId} {r r' : Resources} {d : Option Deed}

/-- What the task stores comes from a stream, from a device or from the clock. -/
def Sourced : Task → Prop
  | errand ⟨.append _, _⟩ => False
  | errand ⟨.tick record, _⟩ => ∃ time, record = Timestamp.record time
  | _ => True

def Lined : Task → Prop
  | session _ => True
  | errand e => e.operation.Lined
  | ticker t => ∀ e, t.stage = .ticking e → e.operation.Lined

theorem Fresh.lined (h : t.Fresh) (ht : t.Sourced) : t.Lined := by
  cases t with
  | session s => trivial
  | errand e =>
    obtain ⟨op, stage⟩ := e
    cases op with
    | append record => exact ht.elim
    | tick record =>
      obtain ⟨time, rfl⟩ := ht
      exact Timestamp.isLine_record time
    | _ => trivial
  | ticker t =>
    have h : t.stage = .waiting ∨ t.stage = .killed := h
    intro e he
    simp [he] at h

theorem lined_operation (t : Ticker) (time : ZonedTime) :
    (t.operation (Timestamp.record time)).Lined := by
  unfold Ticker.operation
  split <;> exact Timestamp.isLine_record time

theorem lined_iff : t.Lined ↔ ∀ e ∈ t.errand?, e.operation.Lined := by
  cases t with
  | session => simp [Lined, errand?]
  | errand => simp [Lined, errand?]
  | ticker => simp only [Lined, Option.mem_def, errand?_ticker]

theorem Change.lined (c : Change id r ev t d t' r') (h : t.Lined) : t'.Lined :=
  lined_iff.mpr (c.operation_forall (fun k time _ => lined_operation k time) (lined_iff.mp h))

theorem Change.isLine_of_mem_records {x : Deed} (c : Change id r ev t (some x) t' r')
    (h : t.Lined) (hr : r.Lined)
    (hq : ∀ s c deadline, t = .session s → s.stage = .queued (some c) deadline →
      ∃ limit script, Session.Requested limit script c) :
    ∀ record ∈ x.records r, record.bytes.IsLine := by
  intro record hrecord
  cases c with
  | session m =>
    obtain ⟨request, deadline, rfl, hs⟩ := m.asked rfl
    rcases request with _ | d | record'
    · cases hrecord
    · cases hrecord
    · obtain ⟨limit, script, hreq⟩ := hq _ _ _ rfl hs
      obtain rfl := List.mem_singleton.mp hrecord
      exact hreq.isLine.1
  | errand m =>
    obtain rfl := m.deed.2 x rfl
    exact Deed.isLine_of_mem_records hr h hrecord
  | ticker m =>
    cases m with
    | tick hs hm =>
      obtain rfl := hm.deed.2 x rfl
      exact Deed.isLine_of_mem_records hr (h _ hs) hrecord

end Task

namespace Hub

variable {h h' : Hub} {ev : Event} {evs : List Event} {entry : Option Entry} {id : TaskId}

theorem Result.limit {s : Session} (hr : h.Result ev entry h')
    (ht : h.tasks[id]? = some (.session s)) :
    ∃ s', h'.tasks[id]? = some (.session s') ∧ s'.reader.limit = s.reader.limit := by
  obtain ⟨hlt, -⟩ := List.getElem?_eq_some_iff.mp ht
  cases hr with
  | spawn => exact ⟨s, (List.getElem?_append_left hlt).trans ht, rfl⟩
  | elapse | nothing => exact ⟨s, ht, rfl⟩
  | @change _ i t t' d r' ht' hc =>
    by_cases hi : i = id
    · subst hi
      obtain rfl : t = .session s := Option.some.inj (ht'.symm.trans ht)
      have hput : (h.put i (t', r')).tasks[i]? = some t' := by simp [put, hlt]
      rw [hput]
      cases hc with
      | session m => exact ⟨_, rfl, m.limit_eq⟩
      | kill =>
        refine ⟨(s.kill i h.resources).1, rfl, ?_⟩
        unfold Session.kill
        split <;> rfl
      | feed | allow => exact ⟨_, rfl, rfl⟩
    · exact ⟨s, by simpa [put, hi] using ht, rfl⟩

theorem run_limit {s : Session} (ht : h.tasks[id]? = some (.session s)) (evs : List Event) :
    ∃ s', (h.run evs).tasks[id]? = some (.session s') ∧ s'.reader.limit = s.reader.limit := by
  induction evs generalizing h s with
  | nil => exact ⟨s, ht, rfl⟩
  | cons ev evs ih =>
    obtain ⟨s₁, ht₁, hl₁⟩ := (h.next_result ev).limit ht
    obtain ⟨s₂, ht₂, hl₂⟩ := ih ht₁
    exact ⟨s₂, ht₂, hl₂.trans hl₁⟩

theorem run_task_lined (hs : h.Starts) (hp : ∀ ev ∈ evs, ev.Proper)
    (hsource : ∀ t, .spawn t ∈ evs → t.Sourced) {t : Task}
    (ht : (h.run evs).tasks[id]? = some t) : t.Lined :=
  run_tasks hs hp (fun t hm hf => hf.lined (hsource t hm)) Task.Change.lined ht

/-- Where the tasks bring nothing but lines along, the log goes on to hold lines. -/
theorem Result.lined (hr : h.Result ev entry h') (hs : h.resources.store.Sound)
    (hl : h.resources.Lined)
    (ht : ∀ (id : TaskId) (t : Task), h.tasks[id]? = some t → t.Lined)
    (hq : ∀ (id : TaskId) (s : Session) (c : Command) (deadline : Nat),
      h.tasks[id]? = some (.session s) → s.stage = .queued (some c) deadline →
      ∃ limit script, Session.Requested limit script c) :
    h'.resources.Lined := by
  cases hr with
  | spawn | nothing => exact hl
  | elapse => exact hl.congr rfl
  | @change _ i t t' d r' hi hc =>
    have hledger := hc.ledger
    cases d with
    | none => exact hl.congr hledger
    | some d =>
      refine (Deed.lined_act hs hl ?_).congr hledger
      refine hc.isLine_of_mem_records (ht i t hi) hl ?_
      rintro s c deadline rfl hstage
      exact hq i s c deadline hi hstage

theorem run_lined (hs : h.Starts) (hl : h.resources.Lined) (hp : ∀ ev ∈ evs, ev.Proper)
    (hsource : ∀ t, .spawn t ∈ evs → t.Sourced) : (h.run evs).resources.Lined := by
  refine run_induction
    (P := fun evs => (∀ t, .spawn t ∈ evs → t.Sourced) → (h.run evs).resources.Lined)
    (fun _ => hl) (fun evs ev hp _ ih hsource => ?_) hp hsource
  have hsource' : ∀ t, .spawn t ∈ evs → t.Sourced :=
    fun t ht => hsource t (List.mem_append_left _ ht)
  rw [run_concat]
  refine (next_result _ ev).lined (sound_run hs.store _) (ih hsource')
    (fun id t ht => run_task_lined hs hp hsource' ht) ?_
  intro id s c deadline ht hstage
  exact ⟨_, _, (run_heeded hs hp id s ht).queued c deadline hstage⟩

structure LineByLine (h : Hub) (evs : List Event) : Prop where
  records : ∀ record ∈ (h.run evs).resources.store.toList, record.bytes.IsLine
  pending : ∀ d, newline ∉ ((h.run evs).resources.device d).pending
  /-- What a session has stored keeps to its limit and is no directive. -/
  stored : ∀ earlier s later record, evs = earlier ++ .spawn (.session s) :: later →
    record ∈ Hub.stored (h.run earlier).tasks.length (h.history evs) →
    (∀ m ∈ s.reader.limit, record.length ≤ m) ∧ Directive.parse? record.bytes = none
  /-- The content gives back the records, in whatever pieces it is read, and then an empty rest. -/
  reread : ∀ (w : Wire) (initial n : Nat), w.Delivers ((h.run evs).resources.store.readFrom 0) →
    initial ≤ LineReader.greatestCapacity →
    (∀ record ∈ (h.run evs).resources.store.toList,
      2 * record.length ≤ LineReader.greatestCapacity) →
    LineReader.readRecords n (.ofInitial initial none) w =
      (List.range n).map fun i => some (.ok (((h.run evs).resources.store.toList.map
        fun record => (⟨record.bytes, true⟩ : Frame)).getD i ⟨[], false⟩))

/-- Where records come from sessions, devices and the clock alone, each of them is one line, and
the content can be cut into the records again. -/
theorem run_lineByLine (hs : h.Starts) (hl : h.resources.Lined) (hp : ∀ ev ∈ evs, ev.Proper)
    (hsource : ∀ t, .spawn t ∈ evs → t.Sourced) : h.LineByLine evs := by
  have hlined := run_lined hs hl hp hsource
  refine ⟨hlined.records, hlined.pending, ?_, ?_⟩
  · rintro earlier s later record rfl hrecord
    have ht : ((h.run earlier).next (.spawn (.session s))).tasks[(h.run earlier).tasks.length]? =
        some (.session s) := by simp [next]
    obtain ⟨s', ht', hlimit⟩ := run_limit ht later
    have hrun : ((h.run earlier).next (.spawn (.session s))).run later =
        h.run (earlier ++ .spawn (.session s) :: later) := by
      rw [run_append]
      rfl
    rw [hrun] at ht'
    have hheeds := run_heeded hs hp _ s' ht'
    obtain ⟨answer, hm⟩ := mem_own.mp (obtains_iff.mp (mem_stored.mp hrecord))
    exact hlimit ▸ (hheeds.done _ answer hm).isLine.2
  · intro w initial n hw hi hle
    have hcontent : (h.run evs).resources.store.readFrom 0 =
        ((h.run evs).resources.store.toList.map Record.bytes).flatten := by
      rw [(sound_run hs.store _).readFrom, List.drop_zero, Store.content]
    rw [hcontent] at hw
    have hlines : ∀ l ∈ (h.run evs).resources.store.toList.map Record.bytes, l.IsLine := by
      simpa using hlined.records
    rw [LineReader.readRecords_lines hlines hw hi (by simpa [Record.length] using hle) n]
    simp only [List.map_map, Function.comp_def]

def terse : Session where
  wire := { arrivals := [.chunk [97], .chunk [10, 120]] }
  reader := .ofInitial 1 (some 2)

/-- A session, a write that leaves a rest and a time record come one after the other. -/
def sources : List Event :=
  [.spawn (.session terse), .spawn (.errand ⟨.write 0 [98, 10, 99], .fresh⟩),
    .spawn (.errand ⟨.tick (Timestamp.record ⟨0, 0, 0⟩), .fresh⟩), .step 0, .step 0, .step 0,
    .step 1, .step 0, .step 0, .step 0, .step 0, .step 0, .step 0, .step 1, .step 1, .step 2,
    .step 2, .step 2]

theorem sources_lineByLine :
    bench.Starts ∧ bench.resources.Lined ∧ (∀ ev ∈ sources, ev.Proper) ∧
      (∀ t, .spawn t ∈ sources → t.Sourced) ∧
      (bench.run sources).resources.store.toList =
        [⟨[98, 10]⟩, Timestamp.record ⟨0, 0, 0⟩] ∧
      ((bench.run sources).resources.device 0).pending = [99] ∧
      Hub.stored 0 (bench.history sources) = [⟨[97, 10]⟩] ∧ bench.LineByLine sources := by
  have hl : bench.resources.Lined := by
    refine ⟨fun record hr => by simp [bench, (Store.empty_holds (c := 2) (by decide)).toList] at hr,
      fun d => ?_⟩
    match d with
    | 0 | 1 => exact List.not_mem_nil
    | d + 2 => exact List.not_mem_nil
  have hf : terse.Fresh := ⟨rfl, ⟨_, _, rfl⟩, rfl, rfl⟩
  have hp : ∀ ev ∈ sources, ev.Proper := by
    simp [sources, Event.Proper, Task.Fresh, hf]
  have hsource : ∀ t, .spawn t ∈ sources → t.Sourced := by
    simp [sources, Task.Sourced]
  exact ⟨bench_starts, hl, hp, hsource, by rfl, by rfl, by rfl,
    run_lineByLine bench_starts hl hp hsource⟩

end Hub

end CommandLog
