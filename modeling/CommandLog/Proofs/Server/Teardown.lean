import CommandLog.Proofs.Hub.Rest
import CommandLog.Proofs.Server.Change

/-! # The teardown of a server

Up to the end of the drain the server keeps account of its sessions that may still be running, and
until the ticker is over, of the ticker. When the store is cleared, nobody is left who could bring
another record into the log; when the server has stopped, the store is empty and stays so, and the
transcript is as its removal left it.
-/

namespace CommandLog

namespace Hub

variable {h h' : Hub} {ev : Event} {entry : Option Entry} {id : TaskId} {t : Task}
  {ids ids' : List TaskId}

def SpentBut (h : Hub) (ids : List TaskId) : Prop :=
  ∀ (id : TaskId) (t : Task), h.tasks[id]? = some t → t.Spent ∨ id ∈ ids

theorem SpentBut.mono (hs : h.SpentBut ids) (hi : ∀ id ∈ ids, id ∈ ids' ∨ h.isOver id = true) :
    h.SpentBut ids' := by
  intro id t ht
  rcases hs id t ht with hspent | hm
  · exact .inl hspent
  · rcases hi id hm with hm | ho
    · exact .inr hm
    · exact .inl (.inl ((isOver_of_getElem? ht).symm.trans ho))

theorem SpentBut.spent (hs : h.SpentBut []) (id : TaskId) (t : Task)
    (ht : h.tasks[id]? = some t) : t.Spent :=
  (hs id t ht).resolve_right List.not_mem_nil

theorem Result.spentBut (hr : h.Result ev entry h') (hs : h.SpentBut ids)
    (hn : ∀ t, ev = .spawn t → t.Spent ∨ h.tasks.length ∈ ids) : h'.SpentBut ids := by
  intro id t ht
  cases hr with
  | spawn u =>
    rcases task_spawn ht with ⟨rfl, rfl⟩ | ⟨-, ht⟩
    · exact hn t rfl
    · exact hs id t ht
  | elapse | nothing => exact hs id t ht
  | change hu hc =>
    rcases task_put ht with ⟨rfl, rfl⟩ | ⟨-, ht⟩
    · exact (hs _ _ hu).imp_left fun hspent => (hc.spent hspent).1
    · exact hs id t ht

theorem isOver_next_kill (h : Hub) (id : TaskId) : (h.next (.kill id)).isOver id = true := by
  cases ht : h.tasks[id]? with
  | none => simp [next, isOver, ht]
  | some t =>
    obtain ⟨hlt, -⟩ := List.getElem?_eq_some_iff.mp ht
    have hn : h.next (.kill id) = h.put id (t.kill id h.resources) := by simp [next, ht]
    rw [hn, isOver_of_getElem? (t := (t.kill id h.resources).1) (by simp [put, hlt])]
    exact t.isOver_kill id h.resources

end Hub

theorem Host.close_listening (h : Host) (a : SocketAddress) :
    (h.close a).listening.contains a = false := by
  simp [close]

namespace Server

variable {s s' : Server} {ev : Event} {evs : List Event}

/-- The sessions and the ticker that the teardown has still to wait for. -/
def awaited (s : Server) : List TaskId :=
  let ticker := (s.ticker.map (·.1)).toList
  match s.phase with
  | .bound | .serving | .pausing _ => s.sessions ++ ticker
  | .draining ids _ => ids ++ ticker
  | .stopping => ticker
  | .clearing _ | .removing | .stopped => []

theorem awaited_eq_nil (hp : s.phase = .removing ∨ s.phase = .stopped) : s.awaited = [] := by
  rcases hp with hp | hp <;> simp [awaited, hp]

/-- An event in which nobody else brings anything into the log or ends the errand that clears it. -/
def Admits (s : Server) : Event → Prop
  | .hub (.spawn t) => ∃ e, t = .errand e ∧ e.stage = .fresh ∧ e.operation.stores = false
  | .hub (.kill id) => s.phase ≠ .clearing id
  | _ => True

def Undisturbed (s : Server) (evs : List Event) : Prop :=
  ∀ earlier ev later, evs = earlier ++ ev :: later → (s.run earlier).Admits ev

theorem undisturbed_concat : s.Undisturbed (evs ++ [ev]) ↔
    s.Undisturbed evs ∧ (s.run evs).Admits ev :=
  Hub.forall_split_concat (P := fun earlier ev => (s.run earlier).Admits ev)

theorem undisturbed_of_forall (h : ∀ ev ∈ evs, ∀ s : Server, s.Admits ev) : s.Undisturbed evs := by
  rintro earlier ev later rfl
  exact h ev (by simp) _

theorem Undisturbed.head {evs' : List Event} (hu : s.Undisturbed (evs ++ evs')) :
    s.Undisturbed evs := by
  rintro earlier ev later rfl
  exact hu earlier ev (later ++ evs') (by simp)

theorem Undisturbed.tail {evs' : List Event} (hu : s.Undisturbed (evs ++ evs')) :
    (s.run evs).Undisturbed evs' := by
  rintro earlier ev later rfl
  rw [← run_append]
  exact hu (evs ++ earlier) ev later (by simp)

structure Winding (s : Server) : Prop where
  ticker : s.phase = .bound → s.ticker = none
  listening : s.phase.isOpen = false → s.isListening = false
  spent : s.hub.SpentBut s.awaited
  clearing : ∀ id, s.phase = .clearing id →
    ∃ e, s.hub.tasks[id]? = some (.errand e) ∧ e.Clears s.hub.resources.store
  cleared : s.phase = .removing ∨ s.phase = .stopped →
    s.hub.resources.store.clear = s.hub.resources.store

theorem Starts.winding (hs : s.Starts) : s.Winding where
  ticker _ := hs.ticker
  listening ho := by simp [hs.phase, Phase.isOpen] at ho
  spent id t ht := by simp [hs.tasks] at ht
  clearing id hp := by simp [hs.phase] at hp
  cleared hp := by simp [hs.phase] at hp

theorem Admits.spent {ev : Hub.Event} (ha : s.Admits (.hub ev)) {t : Task} (he : ev = .spawn t) :
    t.Spent := by
  subst he
  obtain ⟨e, rfl, hst, hop⟩ := ha
  exact .inr ⟨e, rfl, hop, by simp [Errand.copying?, hst]⟩

theorem Winding.spares (h : s.Winding) (hn : s.awaited = []) (ev : Hub.Event) :
    s.hub.resources.Spares (s.hub.next ev).resources :=
  (s.hub.next_result ev).spares (hn ▸ h.spent).spent

theorem Winding.hub (h : s.Winding) {ev : Hub.Event} (ha : s.Admits (.hub ev)) :
    Winding { s with hub := s.hub.next ev } where
  ticker := h.ticker
  listening := h.listening
  spent := (s.hub.next_result ev).spentBut h.spent fun _ he => .inl (ha.spent he)
  clearing id hp := by
    have hp : s.phase = .clearing id := hp
    obtain ⟨e, ht, hc⟩ := h.clearing id hp
    have hn : s.awaited = [] := by simp [awaited, hp]
    refine Hub.next_clears ht hc ?_ (hn ▸ h.spent).spent
    rintro rfl
    exact ha hp
  cleared hp := by
    have hc := h.cleared hp
    rcases (h.spares (awaited_eq_nil hp) ev).store with he | he
    · exact he ▸ hc
    · rw [hc] at he
      exact he ▸ hc

theorem Winding.of_isOpen (hs : s.hub.SpentBut s.awaited) (hb : s.phase ≠ .bound)
    (ho : s.phase.isOpen = true) : s.Winding where
  ticker h := absurd h hb
  listening h := by simp [h] at ho
  spent := hs
  clearing id h := by simp [h, Phase.isOpen] at ho
  cleared h := by rcases h with h | h <;> simp [h, Phase.isOpen] at ho

theorem Winding.of_closing (hs : s.hub.SpentBut s.awaited) (hl : s.isListening = false)
    (hp : s.phase = .stopping ∨ ∃ ids last, s.phase = .draining ids last) : s.Winding where
  ticker h := by simp [h] at hp
  listening _ := hl
  spent := hs
  clearing id h := by simp [h] at hp
  cleared h := by rcases h with h | h <;> simp [h] at hp

theorem Winding.of_cleared (hs : s.hub.SpentBut []) (hl : s.isListening = false)
    (hp : s.phase = .removing ∨ s.phase = .stopped)
    (hc : s.hub.resources.store.clear = s.hub.resources.store) : s.Winding where
  ticker h := by simp [h] at hp
  listening _ := hl
  spent := (awaited_eq_nil hp).symm ▸ hs
  clearing id h := by simp [h] at hp
  cleared _ := hc

theorem store_removeTranscript (r : Resources) : (removeTranscript r).store = r.store := by
  unfold removeTranscript
  split
  · rfl
  · split <;> rfl

theorem transcript_removeTranscript (r : Resources) :
    (removeTranscript r).transcript = r.transcript := by
  unfold removeTranscript
  split
  · rfl
  · split <;> rfl

section Phases

variable (h : s.Winding)

include h

theorem Winding.start (interval : Span) (hp : s.phase = .bound) :
    Winding { s with
      hub := s.hub.next
        (.spawn (.ticker (.start interval (.ofMilliseconds s.hub.resources.now) true)))
      ticker := some (s.hub.tasks.length, s.board.subscribe)
      phase := .serving } := by
  refine .of_isOpen ?_ (by simp) rfl
  refine (s.hub.next_result _).spentBut (h.spent.mono fun id hm => .inl ?_) fun _ _ => .inr ?_
  · have hm : id ∈ s.sessions := by simpa [awaited, hp, h.ticker hp] using hm
    simp [awaited, hm]
  · simp [awaited]

/-- A session that is dropped from the account when another one comes is over. -/
theorem Winding.accept (w : Wire) (hp : s.phase = .serving) :
    Winding { s with
      hub := s.hub.next (.spawn (.session { wire := w, reader := s.settings.lineReader }))
      sessions := s.sessions.filter (!s.hub.isOver ·) ++ [s.hub.tasks.length]
      accepted := s.accepted + 1 } := by
  refine .of_isOpen ?_ (by simp [hp]) (by simp [hp, Phase.isOpen])
  refine (s.hub.next_result _).spentBut (h.spent.mono fun id hm => ?_) fun _ _ => .inr ?_
  · simp only [awaited, hp, List.mem_append, List.mem_filter] at hm ⊢
    cases ho : s.hub.isOver id with
    | true => exact .inr rfl
    | false => exact .inl (hm.imp_left fun hm => .inl ⟨hm, rfl⟩)
  · simp [awaited, hp]

/-- For the tasks it is two events that the ticker heeds a notice: it is told to stop, and does. -/
theorem Winding.heed {id : TaskId} {reader reader' : NoticeReader} {t : Ticker}
    (hk : s.ticker = some (id, reader)) (ht : s.hub.tasks[id]? = some (.ticker t))
    (hs : t.stage = .waiting) :
    Winding { s with
      hub := s.hub.put id (.ticker { t with stopping := true, stage := .stopped }, s.hub.resources)
      ticker := some (id, reader') } := by
  have hstop : s.Admits (.hub (.stop id)) := trivial
  have hstep : Admits { s with hub := s.hub.next (.stop id) } (.hub (.step id)) := trivial
  have hboth := (h.hub hstop).hub hstep
  simp only [next_stop_step ht hs] at hboth
  obtain ⟨hticker, hlistening, hspent, hclearing, hcleared⟩ := hboth
  refine ⟨fun hp => ?_, hlistening, ?_, hclearing, hcleared⟩
  · cases hk.symm.trans (h.ticker hp)
  · simpa only [awaited, hk, Option.map_some] using hspent

theorem Winding.drain {hub : Hub} {id : TaskId} {rest : List TaskId} {deadline : Nat}
    (hp : s.phase = .draining (id :: rest) deadline) (hs : hub.SpentBut s.awaited)
    (ho : hub.isOver id = true) :
    Winding { s with hub := hub, phase := .draining rest deadline } := by
  refine .of_closing (hs.mono fun i hm => ?_) (h.listening (by rw [hp]; rfl)) (.inr ⟨_, _, rfl⟩)
  simp only [awaited, hp, List.cons_append, List.mem_cons] at hm ⊢
  rcases hm with rfl | hm
  · exact .inr ho
  · exact .inl hm

theorem Winding.abort {id : TaskId} {rest : List TaskId} {deadline : Nat}
    (hp : s.phase = .draining (id :: rest) deadline) :
    Winding { s with hub := s.hub.next (.kill id), phase := .draining rest deadline } := by
  refine h.drain hp ((s.hub.next_result (.kill id)).spentBut h.spent ?_) (s.hub.isOver_next_kill id)
  rintro _ ⟨⟩

theorem Winding.spent_of_tickerIsOver (hp : s.phase = .stopping) (ho : s.tickerIsOver = true) :
    s.hub.SpentBut [] := by
  refine h.spent.mono fun i hm => .inr ?_
  simp only [awaited, hp] at hm
  cases hk : s.ticker with
  | none => simp [hk] at hm
  | some x =>
    simp only [hk, Option.map_some, Option.toList_some, List.mem_singleton] at hm
    simpa [tickerIsOver, hk, hm] using ho

theorem Winding.clear (hp : s.phase = .stopping) (ho : s.tickerIsOver = true) :
    Winding { s with
      hub := s.hub.next (.spawn (.errand { operation := .clear }))
      phase := .clearing s.hub.tasks.length } := by
  have hl := h.listening (by rw [hp]; rfl)
  refine ⟨by simp, fun _ => hl, ?_, ?_, by simp⟩
  · refine (s.hub.next_result _).spentBut (h.spent_of_tickerIsOver hp ho) ?_
    rintro _ ⟨⟩
    exact .inl (.inr ⟨_, rfl, rfl, rfl⟩)
  · rintro _ ⟨⟩
    exact ⟨_, List.getElem?_concat_length, rfl, .inl rfl⟩

theorem Winding.remove_of_isOver {id : TaskId} (hp : s.phase = .clearing id)
    (ho : s.hub.isOver id = true) : Winding { s with phase := .removing } := by
  have hnone : s.hub.SpentBut [] := by simpa only [awaited, hp] using h.spent
  obtain ⟨e, ht, hc⟩ := h.clearing id hp
  refine .of_cleared hnone (h.listening (by rw [hp]; rfl)) (.inl rfl) ?_
  exact hc.clear_eq ((Hub.isOver_of_getElem? ht).symm.trans ho)

theorem Winding.stop (hp : s.phase = .removing) :
    Winding { s with
      hub := { s.hub with resources := removeTranscript s.hub.resources }
      phase := .stopped } := by
  have hnone : s.hub.SpentBut [] := by simpa only [awaited, hp] using h.spent
  refine .of_cleared hnone (h.listening (by rw [hp]; rfl)) (.inr rfl) ?_
  change (removeTranscript s.hub.resources).store.clear = (removeTranscript s.hub.resources).store
  rw [store_removeTranscript]
  exact h.cleared (.inl hp)

end Phases

theorem Result.winding (hr : s.Result ev s') (h : s.Winding) (ha : s.Admits ev) : s'.Winding := by
  cases hr with
  | nothing => exact h
  | trigger => exact ⟨h.ticker, h.listening, h.spent, h.clearing, h.cleared⟩
  | serve hp | falter hp | resume hp =>
    refine .of_isOpen ?_ (by simp) rfl
    simpa only [awaited, hp] using h.spent
  | start interval hp => exact h.start interval hp
  | accept w hp => exact h.accept w hp
  | leave hp =>
    refine .of_closing ?_ (s.host.close_listening s.address) (.inr ⟨_, _, rfl⟩)
    simpa only [awaited, hp] using h.spent
  | heed hk ht hs => exact h.heed hk ht hs
  | drained hp =>
    refine .of_closing ?_ (h.listening (by rw [hp]; rfl)) (.inl rfl)
    simpa only [awaited, hp, List.nil_append] using h.spent
  | finish hp ho => exact h.drain hp h.spent ho
  | abort hp => exact h.abort hp
  | clear hp ho => exact h.clear hp ho
  | cleared hp ho => exact h.remove_of_isOver hp ho
  | remove hp => exact h.stop hp
  | hub ev => exact h.hub ha

theorem run_winding (h : s.Winding) (hu : s.Undisturbed evs) : (s.run evs).Winding := by
  induction evs using List.reverseRecOn with
  | nil => exact h
  | append_singleton evs ev ih =>
    obtain ⟨hu, ha⟩ := undisturbed_concat.mp hu
    rw [run_concat]
    exact (next_result _ ev).winding (ih hu) ha

/-- Once the server has stopped, nothing happens to the store or the transcript any more. -/
theorem Result.stopped (hr : s.Result ev s') (h : s.Winding) (hp : s.phase = .stopped) :
    s'.phase = .stopped ∧ s'.hub.resources.store = s.hub.resources.store ∧
      s'.hub.resources.file = s.hub.resources.file := by
  cases hr with
  | nothing | trigger | heed => exact ⟨hp, rfl, rfl⟩
  | hub ev =>
    have hspares := h.spares (awaited_eq_nil (.inr hp)) ev
    refine ⟨hp, ?_, hspares.file⟩
    rcases hspares.store with he | he
    · exact he
    · exact he.trans (h.cleared (.inr hp))
  | serve hp' | start _ hp' | accept _ hp' | falter hp' | resume hp' | leave hp' | drained hp'
  | finish hp' | abort hp' | clear hp' | cleared hp' | remove hp' => cases hp'.symm.trans hp

theorem run_stopped (h : s.Winding) (hp : s.phase = .stopped) (hu : s.Undisturbed evs) :
    (s.run evs).phase = .stopped ∧
      (s.run evs).hub.resources.store = s.hub.resources.store ∧
      (s.run evs).hub.resources.file = s.hub.resources.file := by
  induction evs using List.reverseRecOn with
  | nil => exact ⟨hp, rfl, rfl⟩
  | append_singleton evs ev ih =>
    obtain ⟨hu, ha⟩ := undisturbed_concat.mp hu
    obtain ⟨hp, hstore, hfile⟩ := ih hu
    rw [run_concat]
    obtain ⟨hp', hstore', hfile'⟩ := (next_result _ ev).stopped (run_winding h hu) hp
    exact ⟨hp', hstore'.trans hstore, hfile'.trans hfile⟩

theorem Result.removing (hr : s.Result ev s') (hp : s.phase ≠ .stopped)
    (hp' : s'.phase = .stopped) : ev = .proceed ∧ s.phase = .removing := by
  cases hr with
  | remove hp => exact ⟨rfl, hp⟩
  | nothing | trigger | accept | heed | hub => exact absurd hp' hp
  | serve | start | falter | resume | leave | drained | finish | abort | clear | cleared =>
    cases hp'

theorem exists_removing (hp : s.phase ≠ .stopped) (hp' : (s.run evs).phase = .stopped) :
    ∃ earlier later, evs = earlier ++ .proceed :: later ∧ (s.run earlier).phase = .removing := by
  induction evs using List.reverseRecOn with
  | nil => exact absurd hp' hp
  | append_singleton evs ev ih =>
    by_cases hst : (s.run evs).phase = .stopped
    · obtain ⟨earlier, later, rfl, hr⟩ := ih hst
      exact ⟨earlier, later ++ [ev], by simp, hr⟩
    · rw [run_concat] at hp'
      obtain ⟨rfl, hr⟩ := (next_result _ ev).removing hst hp'
      exact ⟨evs, [], rfl, hr⟩

theorem proceed_of_removing (hp : s.phase = .removing) : s.next .proceed =
    { s with
      hub := { s.hub with resources := removeTranscript s.hub.resources }
      phase := .stopped } := by
  simp [next, proceed?, hp]

/-- The transcript of an earlier state is gone, unless it could not be removed. -/
structure Removed (r r' : Resources) : Prop where
  transcript : r'.transcript = r.transcript
  gone : ∀ tr t, r.transcript = some tr → tr.remove r.tree = .ok t →
    r'.tree = t ∧ r'.hasTranscript = false ∧ r'.transcriptBytes = none
  kept : ∀ tr e, r.transcript = some tr → tr.remove r.tree = .error e → r'.tree = r.tree
  absent : r.transcript = none → r'.tree = r.tree

theorem removed {r r' : Resources} (hf : r'.file = (removeTranscript r).file) : Removed r r' := by
  obtain ⟨htranscript, htree⟩ := Prod.mk.inj hf
  have hsame := htranscript.trans (transcript_removeTranscript r)
  refine ⟨hsame, ?_, ?_, ?_⟩
  · intro tr t hr ht
    have hgone : t.entry tr.path = .error (.os Errno.noSuchEntry) := Transcript.entry_remove ht
    have htree : r'.tree = t := by simpa [removeTranscript, hr, ht] using htree
    have htr : r'.transcript = some tr := hsame.trans hr
    refine ⟨htree, ?_, ?_⟩
    · simp [Resources.hasTranscript, htr, htree, hgone, Except.isOk, Except.toBool]
    · simp [Resources.transcriptBytes, htr, htree, FileTree.read, hgone, Except.toOption]
  · intro tr e hr he
    simpa [removeTranscript, hr, he] using htree
  · intro hr
    simpa [removeTranscript, hr] using htree

structure TornDown (s : Server) (evs : List Event) : Prop where
  listening : (s.run evs).isListening = false
  sessions : ∀ (id : TaskId) x, (s.run evs).hub.tasks[id]? = some (.session x) →
    x.result?.isSome = true ∨ x.stage = .killed
  ticker : ∀ (id : TaskId) k, (s.run evs).hub.tasks[id]? = some (.ticker k) →
    k.stage = .stopped ∨ k.stage = .killed
  count : (s.run evs).hub.resources.store.count = 0
  size : (s.run evs).hub.resources.store.size = 0
  content : (s.run evs).hub.resources.store.toList = []
  removal : ∃ earlier later, evs = earlier ++ .proceed :: later ∧
    (s.run earlier).phase = .removing ∧
    Removed (s.run earlier).hub.resources (s.run evs).hub.resources
  /-- Whatever happens to a session or the ticker from then on, it changes nothing. -/
  quiet : ∀ (later : List Hub.Event) ev id t, (s.run evs).hub.tasks[id]? = some t →
    (∀ e, t ≠ .errand e) → ev.task? = some id →
    (((s.run evs).hub.run later).next ev).resources = ((s.run evs).hub.run later).resources
  /-- The store and the transcript stay as they are, as long as nobody else changes them. -/
  stays : ∀ later, (s.run evs).Undisturbed later →
    ((s.run evs).run later).hub.resources.store = (s.run evs).hub.resources.store ∧
    ((s.run evs).run later).hub.resources.file = (s.run evs).hub.resources.file

theorem phase_of_result? {result : Except ServiceError Unit} (hr : s.result? = some result) :
    s.phase = .stopped ∧ result = .ok () := by
  unfold result? at hr
  split at hr
  case h_1 hp => exact ⟨hp, (Option.some.inj hr).symm⟩
  case h_2 => cases hr

theorem Winding.isOver (h : s.Winding) (hp : s.phase = .stopped) {id : TaskId} {t : Task}
    (ht : s.hub.tasks[id]? = some t) (hne : ∀ e, t ≠ .errand e) : t.isOver = true := by
  rcases (awaited_eq_nil (.inr hp) ▸ h.spent).spent id t ht with ho | ⟨e, he, -⟩
  · exact ho
  · exact absurd he (hne e)

theorem run_removed (hs : s.Starts) (hu : s.Undisturbed evs) (hp : (s.run evs).phase = .stopped) :
    ∃ earlier later, evs = earlier ++ .proceed :: later ∧ (s.run earlier).phase = .removing ∧
      Removed (s.run earlier).hub.resources (s.run evs).hub.resources := by
  obtain ⟨earlier, later, rfl, hremoving⟩ := exists_removing (by simp [hs.phase]) hp
  refine ⟨earlier, later, rfl, hremoving, removed ?_⟩
  rw [List.append_cons] at hu ⊢
  have hw := run_winding hs.winding hu.head
  have hu' := hu.tail
  rw [run_append]
  rw [run_concat, proceed_of_removing hremoving] at hw hu' ⊢
  exact (run_stopped hw rfl hu').2.2

/-- A server gives back no failure, and when it does it has taken itself down: it does not listen,
its sessions and its ticker are over, the store is empty, and the transcript is gone if it could be
removed; and neither the store nor the transcript changes any more. -/
theorem run_tornDown {settings : Settings} {host : Host} {tree : FileTree}
    {dial : Nat → ZonedTime} {result : Except ServiceError Unit}
    (hb : (bind settings host tree dial).1 = .ok s) (hu : s.Undisturbed evs)
    (hr : (s.run evs).result? = some result) : result = .ok () ∧ s.TornDown evs := by
  have hs := bind_starts hb
  have hw := run_winding hs.winding hu
  obtain ⟨hp, rfl⟩ := phase_of_result? hr
  have hclear := hw.cleared (.inr hp)
  refine ⟨rfl, hw.listening (by rw [hp]; rfl), ?_, ?_, ?_, ?_, ?_, run_removed hs hu hp, ?_, ?_⟩
  · intro id x ht
    exact Task.isOver_session (hw.isOver hp ht (by simp))
  · intro id k ht
    exact Task.isOver_ticker (hw.isOver hp ht (by simp))
  · exact (congrArg Store.count hclear).symm
  · exact (congrArg Store.size hclear).symm
  · exact (congrArg Store.toList hclear).symm
  · intro later ev id t ht hne he
    obtain ⟨t', ht', ho'⟩ := Hub.isOver_run ht (hw.isOver hp ht hne) later
    exact Hub.resources_next_of_isOver ht' ho' he
  · intro later hl
    exact (run_stopped hw hp hl).2

/-- A server that is told to stop while one session sends and another one waits for a newline. -/
theorem scribe_tornDown :
    let evs : List Event := [.start, .accept { arrivals := [.chunk [97, 10]] },
      .hub (.step 1), .hub (.step 1), .hub (.step 1), .hub (.step 1),
      .accept { arrivals := [.chunk [98]] }, .hub (.step 2), .trigger, .leave,
      .hub (.elapse 5000), .proceed, .proceed, .proceed, .heed, .proceed,
      .hub (.step 3), .hub (.step 3), .proceed, .proceed]
    (bind scribe.settings .looped .standard scribe.hub.resources.dial).1 = .ok scribe ∧
      scribe.Undisturbed evs ∧ (scribe.run evs).result? = some (.ok ()) ∧
      (scribe.run (evs.take 6)).hub.resources.transcriptBytes = some [97, 10] ∧
      scribe.TornDown evs := by
  intro evs
  have hu : scribe.Undisturbed evs := undisturbed_of_forall (by simp [evs, Admits])
  have hr : (scribe.run evs).result? = some (.ok ()) := rfl
  exact ⟨bind_scribe, hu, hr, rfl, (run_tornDown bind_scribe hu hr).2⟩

end Server

end CommandLog
