import CommandLog.Proofs.Hub.Clock
import CommandLog.Proofs.Hub.Parallel
import CommandLog.Proofs.Hub.Rest
import CommandLog.Proofs.Hub.Tick

/-! # The pace of a ticker

Whatever else happens to a hub, a ticker keeps to its schedule: it takes no tick before its time, so
that it stores no more records than periods have passed since its start; each tick stores one record
or gives up the wait for the lock, and the next one is taken all the same. Only a ticker that was
told to stop or killed is ever over, and it does nothing any more.
-/

namespace CommandLog.Hub

open Ticker

variable {h : Hub} {ev : Event} {evs : List Event} {id : TaskId} {k k' : Ticker}
  {period start : Span} {log : List Act}

def acts (id : TaskId) (h : Hub) (ev : Event) : List Act :=
  match h.tasks[id]?, (h.next ev).tasks[id]? with
  | some (.ticker k), some (.ticker k') =>
    k.acts k' (((h.part? ev).filter (·.task = id)).map Entry.deed) h.resources
  | _, _ => []

inductive TickerResult (id : TaskId) (h : Hub) (ev : Event) (k : Ticker) :
    Ticker → List Act → Prop where
  | nothing : (ev.task? = some id → (h.next ev).resources = h.resources) →
      TickerResult id h ev k k []
  | change {k' : Ticker} {d : Option Deed} :
      Task.Change id h.resources ev (.ticker k) d (.ticker k') (h.next ev).resources →
      k.Change id h.resources ev d k' → TickerResult id h ev k k' (k.acts k' d h.resources)

theorem next_tickerResult (ht : h.tasks[id]? = some (.ticker k)) (ev : Event) :
    ∃ k', (h.next ev).tasks[id]? = some (.ticker k') ∧
      h.TickerResult id ev k k' (h.acts id ev) := by
  obtain ⟨hlt, -⟩ := List.getElem?_eq_some_iff.mp ht
  have hkeep : (h.next ev).tasks[id]? = some (.ticker k) →
      (h.part? ev).filter (·.task = id) = none →
      (ev.task? = some id → (h.next ev).resources = h.resources) →
      ∃ k', (h.next ev).tasks[id]? = some (.ticker k') ∧
        h.TickerResult id ev k k' (h.acts id ev) := by
    intro ht' hp hr
    refine ⟨k, ht', ?_⟩
    have ha : h.acts id ev = [] := by
      simp [acts, ht, ht', hp, acts_of_stage_eq]
    rw [ha]
    exact .nothing hr
  have hr := h.next_result ev
  obtain ⟨h', hn⟩ : ∃ h', h.next ev = h' := ⟨_, rfl⟩
  obtain ⟨entry, hp⟩ : ∃ entry, h.part? ev = entry := ⟨_, rfl⟩
  rw [hn, hp] at hr
  cases hr with
  | spawn t =>
    refine hkeep ?_ (by rw [hp]; rfl) nofun
    rw [hn]
    exact (List.getElem?_append_left hlt).trans ht
  | elapse ms => exact hkeep (by rw [hn]; exact ht) (by rw [hp]; rfl) nofun
  | nothing => exact hkeep (by rw [hn]; exact ht) (by rw [hp]; rfl) fun _ => by rw [hn]
  | @change _ i t t' d r' hi hc =>
    by_cases he : i = id
    · subst he
      obtain rfl := Option.some.inj (hi.symm.trans ht)
      obtain ⟨k', rfl, hk⟩ := hc.ticker_change
      have ht' : (h.next ev).tasks[i]? = some (.ticker k') := by simp [hn, put, hlt]
      have ha : h.acts i ev = k.acts k' d h.resources := by
        cases d <;> simp [acts, ht, ht', hp, Entry.made, Option.filter]
      rw [ha]
      refine ⟨k', ht', .change ?_ hk⟩
      rw [hn]
      exact hc
    · refine hkeep (by simpa [hn, put, he] using ht) ?_ fun hid => ?_
      · rw [hp]
        cases d <;> simp [Entry.made, he, Option.filter]
      · have hev : ev.task? = some i := by cases hc <;> rfl
        exact absurd (Option.some.inj (hev.symm.trans hid)) he

def tickerLog (id : TaskId) (h : Hub) (evs : List Event) : List Act :=
  along (acts id) h evs

theorem tickerLog_concat (id : TaskId) (h : Hub) (evs : List Event) (ev : Event) :
    h.tickerLog id (evs ++ [ev]) = h.tickerLog id evs ++ (h.run evs).acts id ev :=
  along_concat _ h evs ev

def TickerOnSchedule (id : TaskId) (period start : Span) (h : Hub) (log : List Act) : Prop :=
  ∃ k, h.tasks[id]? = some (.ticker k) ∧ k.OnSchedule period start h.resources log

theorem TickerOnSchedule.next (hf : h.TickerOnSchedule id period start log) (ev : Event) :
    (h.next ev).TickerOnSchedule id period start (log ++ h.acts id ev) := by
  obtain ⟨k, ht, hk⟩ := hf
  obtain ⟨k', ht', hr⟩ := next_tickerResult ht ev
  have hn : h.resources.now ≤ (h.next ev).resources.now := by
    rw [now_next]
    exact Nat.le_add_right _ _
  refine ⟨k', ht', OnSchedule.later ?_ (h.dial_next ev) (h.timeout_next ev) hn⟩
  generalize h.acts id ev = done at hr
  cases hr with
  | nothing => rwa [List.append_nil]
  | change _ hc => exact (hc.onSchedule hk).1

theorem TickerOnSchedule.run (hf : h.TickerOnSchedule id period start log) (evs : List Event) :
    (h.run evs).TickerOnSchedule id period start (log ++ h.tickerLog id evs) := by
  induction evs using List.reverseRecOn with
  | nil => simpa [tickerLog, along, Hub.run] using hf
  | append_singleton evs ev ih =>
    rw [run_concat, tickerLog_concat, ← List.append_assoc]
    exact ih.next ev

theorem TickerOnSchedule.store (hf : h.TickerOnSchedule id period start log)
    (he : ev.task? = some id) :
    (h.next ev).resources.store = h.resources.store.appendAll (records (h.acts id ev)) := by
  obtain ⟨k, ht, hk⟩ := hf
  obtain ⟨k', -, hr⟩ := next_tickerResult ht ev
  generalize h.acts id ev = done at hr
  cases hr with
  | nothing hr => exact congrArg Resources.store (hr he)
  | @change _ d hc hk' =>
    rw [records_acts, Resources.store_congr hc.ledger]
    cases d with
    | none => rfl
    | some d =>
      have hne : d ≠ .errand .clear := fun h => (hk'.onSchedule hk).2 (congrArg some h)
      simp [Deed.store_act, hne]

/-- A ticker that is over after a run was told to stop or killed in it. -/
theorem dismissedBy_run (ht : h.tasks[id]? = some (.ticker k)) (hk : k.DismissedBy id [])
    (evs : List Event) :
    ∃ k', (h.run evs).tasks[id]? = some (.ticker k') ∧ k'.DismissedBy id evs := by
  induction evs using List.reverseRecOn with
  | nil => exact ⟨k, ht, hk⟩
  | append_singleton evs ev ih =>
    obtain ⟨k₁, ht₁, hk₁⟩ := ih
    obtain ⟨k', ht', hr⟩ := next_tickerResult ht₁ ev
    rw [← run_concat] at ht'
    refine ⟨k', ht', ?_⟩
    generalize (h.run evs).acts id ev = done at hr
    cases hr with
    | nothing => exact hk₁.mono ev
    | change _ hc => exact hc.dismissedBy hk₁

def Ended (id : TaskId) (h : Hub) : Prop :=
  ∃ t, h.tasks[id]? = some t ∧ t.isOver = true

theorem Ended.run (hd : h.Ended id) (evs : List Event) : (h.run evs).Ended id := by
  obtain ⟨t, ht, ho⟩ := hd
  exact isOver_run ht ho evs

theorem Ended.acts (hd : h.Ended id) (ev : Event) : h.acts id ev = [] := by
  obtain ⟨t, ht, ho⟩ := hd
  cases t with
  | session | errand => simp [Hub.acts, ht]
  | ticker k =>
    obtain ⟨k', -, hr⟩ := next_tickerResult ht ev
    generalize h.acts id ev = done at hr
    cases hr with
    | nothing => rfl
    | change _ hc => exact hc.acts_of_isOver (Task.isOver_ticker ho)

theorem Ended.tickerLog (hd : h.Ended id) (evs : List Event) : h.tickerLog id evs = [] := by
  induction evs using List.reverseRecOn with
  | nil => rfl
  | append_singleton evs ev ih => rw [tickerLog_concat, ih, (hd.run evs).acts, List.append_nil]

/-- What lasts until the ticker does something leads to that in the end. -/
theorem exists_act_of_lasting {Q : Hub → Prop} {p : Act → Bool} (hq : Q h)
    (step : ∀ h, ∀ ev ∈ evs, Q h → Q (h.next ev) ∨ ∃ a ∈ h.acts id ev, p a = true)
    (last : Q (h.run evs) → ∃ a ∈ (h.run evs).acts id ev, p a = true) :
    ∃ a ∈ h.tickerLog id (evs ++ [ev]), p a = true := by
  have hrun : Q (h.run evs) ∨ ∃ a ∈ h.tickerLog id evs, p a = true := by
    clear last
    induction evs using List.reverseRecOn with
    | nil => exact .inl hq
    | append_singleton evs ev ih =>
      rw [run_concat, tickerLog_concat]
      rcases ih fun h ev hev => step h ev (List.mem_append_left _ hev) with hq | ⟨a, ha, hp⟩
      · refine (step _ ev List.mem_concat_self hq).imp_right ?_
        exact fun ⟨a, ha, hp⟩ => ⟨a, List.mem_append_right _ ha, hp⟩
      · exact .inr ⟨a, List.mem_append_left _ ha, hp⟩
  rw [tickerLog_concat]
  rcases hrun with hq | ⟨a, ha, hp⟩
  · obtain ⟨a, ha, hp⟩ := last hq
    exact ⟨a, List.mem_append_right _ ha, hp⟩
  · exact ⟨a, List.mem_append_left _ ha, hp⟩

/-- A ticker that waits for its next tick to be due and has not been told to stop. -/
def Idle (id : TaskId) (due : Span) (h : Hub) : Prop :=
  ∃ k, h.tasks[id]? = some (.ticker k) ∧ k.stage = .waiting ∧ k.stopping = false ∧ k.due = due

/-- A ticker with a tick under way that waits for the lock no longer than to some time. -/
def Queues (id : TaskId) (last : Nat) (h : Hub) : Prop :=
  ∃ k e record deadline, h.tasks[id]? = some (.ticker k) ∧ k.stage = .ticking e ∧
    e.Brings record ∧ e.stage = .queued (some deadline) ∧ deadline ≤ last

theorem Idle.next {due : Span} (hi : h.Idle id due) (hstop : ev ≠ .stop id)
    (hkill : ev ≠ .kill id) :
    (h.next ev).Idle id due ∨ ∃ a ∈ h.acts id ev, a.isTake = true := by
  obtain ⟨k, ht, hs, hn, hdue⟩ := hi
  obtain ⟨k', ht', hr⟩ := next_tickerResult ht ev
  generalize h.acts id ev = done at hr
  cases hr with
  | nothing => exact .inl ⟨k, ht', hs, hn, hdue⟩
  | change _ hc =>
    cases hc with
    | killed => exact absurd rfl hkill
    | warned => exact absurd rfl hstop
    | move m =>
      cases m with
      | stop _ hstop => cases hn.symm.trans hstop
      | fire => exact .inr ⟨.take h.resources.now, by simp [Ticker.acts, turn?, hs], rfl⟩
      | done hs' | tick hs' => cases hs.symm.trans hs'

/-- A ticker told to stop does not notice while it waits for the lock. -/
theorem Queues.next {last : Nat} (hq : h.Queues id last) (hkill : ev ≠ .kill id) :
    (h.next ev).Queues id last ∨ ∃ a ∈ h.acts id ev, (!a.isTake) = true := by
  obtain ⟨k, e, record, deadline, ht, hs, hb, hst, hle⟩ := hq
  obtain ⟨k', ht', hr⟩ := next_tickerResult ht ev
  generalize h.acts id ev = done at hr
  cases hr with
  | nothing => exact .inl ⟨k, e, record, deadline, ht', hs, hb, hst, hle⟩
  | change _ hc =>
    cases hc with
    | killed => exact absurd rfl hkill
    | warned => exact .inl ⟨_, e, record, deadline, ht', hs, hb, hst, hle⟩
    | move m =>
      cases m with
      | stop hs' | fire hs' => cases hs.symm.trans hs'
      | done hs' hf =>
        obtain rfl := Stage.ticking.inj (hs.symm.trans hs')
        cases hst.symm.trans hf
      | tick hs' m =>
        obtain rfl := Stage.ticking.inj (hs.symm.trans hs')
        exact .inr (exists_outcome hs hb hst m)

theorem next_step_ticker {r' : Resources} (ht : h.tasks[id]? = some (.ticker k))
    (hs : k.step? id h.resources = some (k', r')) :
    h.next (.step id) = h.put id (.ticker k', r') := by
  simp [Hub.next, step?, ht, Task.step?, hs]

theorem tasks_step_ticker {r' : Resources} (ht : h.tasks[id]? = some (.ticker k))
    (hs : k.step? id h.resources = some (k', r')) :
    (h.next (.step id)).tasks[id]? = some (.ticker k') := by
  obtain ⟨hlt, -⟩ := List.getElem?_eq_some_iff.mp ht
  simp [next_step_ticker ht hs, put, hlt]

theorem acts_step_ticker {r' : Resources} (ht : h.tasks[id]? = some (.ticker k))
    (hs : k.step? id h.resources = some (k', r')) :
    h.acts id (.step id) = k.acts k' (k.deed? id h.resources) h.resources := by
  have ht' := tasks_step_ticker ht hs
  cases hd : k.deed? id h.resources <;>
    simp [acts, ht, ht', part?, Task.deed?, hd, Entry.made, Option.filter]

theorem Idle.step {due : Span} (hi : h.Idle id due)
    (hd : due.nanoseconds ≤ (Span.ofMilliseconds h.resources.now).nanoseconds) :
    ∃ a ∈ h.acts id (.step id), a.isTake = true := by
  obtain ⟨k, ht, hs, hn, rfl⟩ := hi
  refine ⟨.take h.resources.now, ?_, rfl⟩
  have hstep : ∃ e k', k.step? id h.resources = some (k', h.resources) ∧
      k'.stage = .ticking e := by
    simp [Ticker.step?, hs, hn, Ticker.fire?, hd]
  obtain ⟨e, k', hstep, hs'⟩ := hstep
  rw [acts_step_ticker ht hstep]
  simp [Ticker.acts, turn?, hs, hs']

theorem Queues.step {last : Nat} (hq : h.Queues id last) (hl : last ≤ h.resources.now) :
    ∃ a ∈ h.acts id (.step id), (!a.isTake) = true := by
  obtain ⟨k, e, record, deadline, ht, hs, hb, hst, hle⟩ := hq
  have hi : (e.step? id h.resources).isSome = true := by
    by_cases hh : h.resources.lock.holder = some id <;>
      simp [Errand.step?, hst, hh, hle.trans hl]
  obtain ⟨⟨e', r'⟩, he⟩ := Option.isSome_iff_exists.mp hi
  have hstep : k.step? id h.resources = some ({ k with stage := .ticking e' }, r') := by
    simp [Ticker.step?, hs, hst, he]
  have hdeed : k.deed? id h.resources = e.deed? id h.resources := by simp [Ticker.deed?, hs]
  rw [acts_step_ticker ht hstep, hdeed]
  exact exists_outcome hs hb hst (Errand.step?_move he)

theorem Queues.settles {last : Nat} (hq : h.Queues id last) (hkill : .kill id ∉ evs)
    (hl : last ≤ (h.run evs).resources.now) :
    ∃ a ∈ h.tickerLog id (evs ++ [.step id]), (!a.isTake) = true := by
  refine exists_act_of_lasting hq (fun h ev hev hq => hq.next ?_) fun hq => hq.step hl
  rintro rfl
  exact hkill hev

theorem Idle.takes {due : Span} (hi : h.Idle id due) (hstop : .stop id ∉ evs)
    (hkill : .kill id ∉ evs)
    (hd : due.nanoseconds ≤ (Span.ofMilliseconds (h.run evs).resources.now).nanoseconds) :
    ∃ a ∈ h.tickerLog id (evs ++ [.step id]), a.isTake = true := by
  refine exists_act_of_lasting hi (fun h ev hev hi => hi.next ?_ ?_) fun hi => hi.step hd
  · rintro rfl
    exact hstop hev
  · rintro rfl
    exact hkill hev

theorem mem_tickerLog_cons {a : Act} (ha : a ∈ (h.next ev).tickerLog id evs) :
    a ∈ h.tickerLog id (ev :: evs) :=
  List.mem_append_right _ ha

theorem idle_of_finished {e : Errand} {result : Except LogError Reply}
    (ht : h.tasks[id]? = some (.ticker k)) (hs : k.stage = .ticking e)
    (hf : e.stage = .finished result) (hn : k.stopping = false) :
    (h.next (.step id)).Idle id k.due := by
  have hstep : k.step? id h.resources = some ({ k with stage := .waiting }, h.resources) := by
    simp [Ticker.step?, hs, hf]
  exact ⟨_, tasks_step_ticker ht hstep, rfl, hn, rfl⟩

/-- A tick under way stores its record or gives up once its wait has lasted as long as waits may. -/
theorem settles_of_onSchedule {done : List Act} {time : Nat}
    (ht : h.tasks[id]? = some (.ticker k))
    (hk : k.OnSchedule period start h.resources (done ++ [.take time]))
    (hlive : k.stage ≠ .killed) (hkill : .kill id ∉ evs)
    (hn : h.resources.now + h.resources.timeout.ceilMilliseconds ≤
      (h.run (.step id :: evs)).resources.now) :
    ∃ a ∈ h.tickerLog id (.step id :: evs ++ [.step id]), (!a.isTake) = true := by
  have hst := hk.stageAfter
  generalize hs : k.stage = stage, hl : done ++ [.take time] = log at hst
  cases hst with
  | waiting ho | settled ho | stopped ho => exact absurd hl.symm (ho.ne_take _ _)
  | killed => exact absurd hs hlive
  | @asking _ _ e _ _ hb _ hst =>
    rcases hst with hst | ⟨last, hst, -, hle⟩
    · have hstep : k.step? id h.resources = some
          ({ k with stage := .ticking { e with stage := .queued (some h.resources.deadline) } },
            h.resources.request id) := by
        simp [Ticker.step?, hs, Errand.step?, hst, hb.device?, hb.deadline?]
      have hq : (h.next (.step id)).Queues id h.resources.deadline :=
        ⟨_, _, _, _, tasks_step_ticker ht hstep, rfl, hb, rfl, le_rfl⟩
      obtain ⟨a, ha, hp⟩ := hq.settles hkill hn
      exact ⟨a, mem_tickerLog_cons ha, hp⟩
    · have hq : h.Queues id last := ⟨k, e, _, last, ht, hs, hb, hst, le_rfl⟩
      exact hq.settles (by simpa using hkill) (hle.trans hn)

/-- After a tick that has come to something, the next one is taken when it is due. -/
theorem goesOn_of_onSchedule (ht : h.tasks[id]? = some (.ticker k))
    (hk : k.OnSchedule period start h.resources log) (hnot : k.stopping = false)
    (hnstopped : k.stage ≠ .stopped) (hnkilled : k.stage ≠ .killed)
    (hstop : .stop id ∉ evs) (hkill : .kill id ∉ evs)
    (ho : Regular h.resources.dial h.resources.timeout log)
    (hn : (lastTime start (takeTimes log)).nanoseconds + period.nanoseconds ≤
      (Span.ofMilliseconds (h.run (.step id :: .step id :: evs)).resources.now).nanoseconds) :
    ∃ a ∈ h.tickerLog id (.step id :: .step id :: evs ++ [.step id]), a.isTake = true := by
  have hdue := hk.schedule.near.1.trans hn
  have hst := hk.stageAfter
  generalize hs : k.stage = stage at hst
  cases hst with
  | asking _ hl => exact absurd hl (ho.ne_take _ _)
  | stopped => exact absurd hs hnstopped
  | killed => exact absurd hs hnkilled
  | waiting =>
    have hi : h.Idle id k.due := ⟨k, ht, hs, hnot, rfl⟩
    exact hi.takes (by simpa using hstop) (by simpa using hkill) hdue
  | @settled e _ hse =>
    rcases hse with ⟨record, reply, hst⟩ | ⟨result, hst⟩
    · have hstep : k.step? id h.resources = some
          ({ k with stage := .ticking { e with stage := .finished (.ok reply) } },
            (h.resources.transcribe record).release) := by
        simp [Ticker.step?, hs, Errand.step?, hst]
      have ht' := tasks_step_ticker ht hstep
      have hi := idle_of_finished ht' rfl rfl hnot
      obtain ⟨a, ha, hp⟩ := hi.takes hstop hkill hdue
      exact ⟨a, mem_tickerLog_cons (mem_tickerLog_cons ha), hp⟩
    · have hi := idle_of_finished ht hs hst hnot
      have hstop' : Event.stop id ∉ Event.step id :: evs := by simpa using hstop
      have hkill' : Event.kill id ∉ Event.step id :: evs := by simpa using hkill
      obtain ⟨a, ha, hp⟩ := hi.takes hstop' hkill' hdue
      exact ⟨a, mem_tickerLog_cons ha, hp⟩

/-- How a ticker keeps its schedule that has started in a hub, after a run. -/
structure KeepsSchedule (id : TaskId) (period start : Span) (h : Hub) (evs : List Event) :
    Prop where
  /-- One tick is in progress at a time; each stores one record or waits for the lock in vain. -/
  orderly : InTurn (h.run evs).resources.dial (h.run evs).resources.timeout (h.tickerLog id evs)
  punctual : ∀ n time, (takeTimes (h.tickerLog id evs))[n]? = some time →
    start.nanoseconds + (n + 1) * period.nanoseconds ≤ (Span.ofMilliseconds time).nanoseconds
  /-- What was missed is not made up for. -/
  spaced : (takeTimes (h.tickerLog id evs)).IsChain fun time next =>
    (Span.ofMilliseconds time).nanoseconds + period.nanoseconds ≤
      (Span.ofMilliseconds next).nanoseconds + tolerance.nanoseconds
  few : (records (h.tickerLog id evs)).length ≤
    ((Span.ofMilliseconds (h.run evs).resources.now).nanoseconds - start.nanoseconds) /
      period.nanoseconds
  first : (Span.ofMilliseconds (h.run evs).resources.now).nanoseconds <
    (start.add period).nanoseconds → records (h.tickerLog id evs) = []
  store : ∀ ev : Event, ev.task? = some id → ((h.run evs).next ev).resources.store =
    (h.run evs).resources.store.appendAll (records ((h.run evs).acts id ev))
  /-- Only a ticker that was told to stop or killed is over. -/
  lasts : (h.run evs).isOver id = true → .stop id ∈ evs ∨ .kill id ∈ evs
  /-- A tick in progress comes to something, also if the ticker is told to stop meanwhile. -/
  settles : ∀ done time later, h.tickerLog id evs = done ++ [.take time] →
    .kill id ∉ evs ++ later →
    (h.run evs).resources.now + (h.run evs).resources.timeout.ceilMilliseconds ≤
      ((h.run evs).run (.step id :: later)).resources.now →
    ∃ a ∈ (h.run evs).tickerLog id (.step id :: later ++ [.step id]), (!a.isTake) = true
  /-- After it, whatever it came to, the next one is taken when its time has come. -/
  goesOn : ∀ later, Regular (h.run evs).resources.dial (h.run evs).resources.timeout
      (h.tickerLog id evs) →
    .stop id ∉ evs ++ later → .kill id ∉ evs ++ later →
    (lastTime start (takeTimes (h.tickerLog id evs))).nanoseconds + period.nanoseconds ≤
      (Span.ofMilliseconds
        ((h.run evs).run (.step id :: .step id :: later)).resources.now).nanoseconds →
    ∃ a ∈ (h.run evs).tickerLog id (.step id :: .step id :: later ++ [.step id]), a.isTake = true
  ended : (h.run evs).isOver id = true → ∀ later, (h.run evs).tickerLog id later = []

/-- What is known of a ticker with a period, after any run in which it has been there from the
start. -/
theorem exists_ticker_run (x : Hub) (hp : 0 < period.nanoseconds) (start : Span) (copies : Bool)
    (evs : List Event) :
    let id := x.tasks.length
    let h := x.next (.spawn (.ticker (.start period start copies)))
    ∃ k, (h.run evs).tasks[id]? = some (.ticker k) ∧
      k.OnSchedule period start (h.run evs).resources (h.tickerLog id evs) ∧
      k.DismissedBy id evs := by
  intro id h
  have ht : h.tasks[id]? = some (.ticker (.start period start copies)) :=
    List.getElem?_concat_length
  have hwaiting : (Ticker.start period start copies).stage = .waiting := if_neg hp.ne'
  have hstart : h.TickerOnSchedule id period start [] :=
    ⟨_, ht, .start, rfl, nofun, hwaiting ▸ .waiting .nil⟩
  have hfresh : (Ticker.start period start copies).DismissedBy id [] := by
    refine ⟨?_, nofun, ?_⟩ <;>
    · rw [hwaiting]
      nofun
  obtain ⟨k, ht', hk⟩ := hstart.run evs
  obtain ⟨k', hk', hdismissed⟩ := dismissedBy_run ht hfresh evs
  obtain rfl := Task.ticker.inj (Option.some.inj (ht'.symm.trans hk'))
  exact ⟨k, ht', hk, hdismissed⟩

/-- Whenever a ticker starts, and whatever happens to the hub then, it keeps its schedule. -/
theorem run_keepsSchedule (x : Hub) {period : Span} (hp : 0 < period.nanoseconds) (start : Span)
    (copies : Bool) (evs : List Event) :
    let id := x.tasks.length
    let h := x.next (.spawn (.ticker (.start period start copies)))
    h.KeepsSchedule id period start evs := by
  intro id h
  obtain ⟨k, ht, hk, hdismissed⟩ := exists_ticker_run x hp start copies evs
  have hover : (h.run evs).isOver id = (Task.ticker k).isOver := isOver_of_getElem? ht
  exact {
    orderly := hk.stageAfter.inTurn
    punctual := fun n time => hk.schedule.late
    spaced := hk.schedule.spaced
    few := hk.length_records_le hp
    first := hk.records_eq_nil
    store := fun ev => TickerOnSchedule.store ⟨k, ht, hk⟩
    lasts := by
      intro ho
      rw [hover] at ho
      exact (Task.isOver_ticker ho).imp hdismissed.stopped hdismissed.killed
    settles := by
      intro done time later hlog hkill
      rw [List.mem_append, not_or] at hkill
      have hlive : k.stage ≠ .killed := fun hs => hkill.1 (hdismissed.killed hs)
      exact settles_of_onSchedule ht (hlog ▸ hk) hlive hkill.2
    goesOn := by
      intro later ho hstop hkill
      rw [List.mem_append, not_or] at hstop hkill
      have hnot : k.stopping = false :=
        Bool.eq_false_iff.mpr fun hs => hstop.1 (hdismissed.stopping hs)
      have hnstopped : k.stage ≠ .stopped := fun hs => hstop.1 (hdismissed.stopped hs)
      have hnkilled : k.stage ≠ .killed := fun hs => hkill.1 (hdismissed.killed hs)
      exact goesOn_of_onSchedule ht hk hnot hnstopped hnkilled hstop.2 hkill.2 ho
    ended := by
      intro ho later
      rw [hover] at ho
      exact Ended.tickerLog ⟨_, ht, ho⟩ later }

def occupied : Hub :=
  { resources := {
      store := .empty 2, timeout := .ofMilliseconds 20, dial := fun _ => ⟨0, 0, 0⟩ } : Hub }.run
    [.spawn (.errand ⟨.hold, .fresh⟩), .step 0, .step 0]

def started : Hub :=
  occupied.next (.spawn (.ticker (.start (.ofMilliseconds 10) (.ofMilliseconds 0) false)))

/-- The first tick does not get the lock in time. -/
def missed : List Event :=
  [.elapse 10, .step 1, .step 1, .elapse 20, .step 1]

/-- The second one gets it, which has been let go. -/
def caughtUp : List Event :=
  missed ++ (.step 1 :: .step 1 :: [.letGo 0] ++ [.step 1]) ++ [.step 1]

theorem run_keepsSchedule_caughtUp :
    0 < (Span.ofMilliseconds 10).nanoseconds ∧
      started.KeepsSchedule 1 (.ofMilliseconds 10) (.ofMilliseconds 0) missed ∧
      started.KeepsSchedule 1 (.ofMilliseconds 10) (.ofMilliseconds 0) caughtUp ∧
      started.tickerLog 1 missed =
        [.take 10, .giveUp 30 (.lockUnavailable (.timedOut (.ofMilliseconds 20)))] ∧
      (∃ a ∈ (started.run missed).tickerLog 1 (.step 1 :: .step 1 :: [.letGo 0] ++ [.step 1]),
        a.isTake = true) ∧
      started.tickerLog 1 caughtUp =
        [.take 10, .giveUp 30 (.lockUnavailable (.timedOut (.ofMilliseconds 20))), .take 30,
          .store (Timestamp.record ⟨0, 0, 0⟩)] := by
  have hp : 0 < (Span.ofMilliseconds 10).nanoseconds := by decide
  have hk : started.KeepsSchedule 1 (.ofMilliseconds 10) (.ofMilliseconds 0) missed :=
    run_keepsSchedule occupied hp _ _ missed
  have hlog : started.tickerLog 1 missed =
      [.take 10, .giveUp 30 (.lockUnavailable (.timedOut (.ofMilliseconds 20)))] := rfl
  have hregular : Regular (started.run missed).resources.dial
      (started.run missed).resources.timeout (started.tickerLog 1 missed) :=
    .gaveUp .nil (by decide)
  have htake := hk.goesOn [.letGo 0] hregular (by simp [missed]) (by simp [missed]) (by decide)
  exact ⟨hp, hk, run_keepsSchedule occupied hp _ _ caughtUp, hlog, htake, rfl⟩

end CommandLog.Hub
