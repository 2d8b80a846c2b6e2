import CommandLog.Proofs.Hub.Parallel

/-! # Operations under way

An operation is carried out by a task of its own or by a ticker. Whatever happens to the hub, the
operation stays as it is, takes its next step or is ended. Once it has the lock it does not give up,
and a device write that completes no record does not even ask for the lock.
-/

namespace CommandLog

open FairLock

namespace Operation

variable {op : Operation} {r : Resources}

theorem act_ne_lockUnavailable (op : Operation) (r : Resources) (cause : LockFailure) :
    (op.act r).1 ≠ .error (.lockUnavailable cause) := by
  intro h
  cases op with
  | seekTo n d =>
    simp only [act] at h
    split at h
    case h_1 => cases h
    case h_2 he =>
      obtain rfl := Except.error.inj h
      cases Store.resolve_eq_error he
  | seek n target =>
    simp only [act, Store.seek] at h
    split at h
    case h_1 => cases h
    case h_2 he =>
      obtain rfl := Except.error.inj h
      split at he <;> cases he
  | _ => cases h

end Operation

namespace Errand

variable {e e' : Errand} {id : TaskId} {r r' : Resources} {d : Option Deed}

def Open (e : Errand) : Prop :=
  ∀ result, e.stage ≠ .finished result

/-- The errand has failed because it did not get the lock in time. -/
def GaveUp (e : Errand) : Prop :=
  ∃ cause, e.stage = .finished (.error (.lockUnavailable cause))

def Unasked (e : Errand) : Prop :=
  e.stage = .fresh ∨ e.stage = .gathering

/-- The errand has the lock of the store, or it has been ended. -/
def Sure (e : Errand) (id : TaskId) (r : Resources) : Prop :=
  e.stage = .killed ∨ e.stake = .inside ∨ e.stake = .asked ∧ r.lock.holder = some id

/-- What an event does to an errand under way. -/
inductive Passes (e : Errand) (id : TaskId) (r : Resources) :
    Hub.Event → Option Errand → Resources → Prop where
  | aside {ev : Hub.Event} {r' : Resources} : ev.task? ≠ some id → Passes e id r ev (some e) r'
  | idle {ev : Hub.Event} : ev.task? = some id → Passes e id r ev (some e) r
  | move {d : Option Deed} {e' : Errand} {r' : Resources} : e.Move id r d e' r' →
      Passes e id r (.step id) (some e') r'
  | kill {x : Option Errand} : e.Open → (∀ e' ∈ x, e' = { e with stage := .killed }) →
      Passes e id r (.kill id) x (e.kill id r).2
  | letGo : e.stage = .holding →
      Passes e id r (.letGo id) (some { e with stage := .finished (.ok .held) }) r.release
  | done {ev : Hub.Event} : ¬ e.Open → Passes e id r ev none r

theorem kill_of_not_open (ho : ¬ e.Open) (id : TaskId) (r : Resources) : e.kill id r = (e, r) := by
  obtain ⟨result, hf⟩ := not_forall_not.mp ho
  simp [kill, hf]

theorem kill_passes (e : Errand) (id : TaskId) (r : Resources) :
    e.Passes id r (.kill id) (some (e.kill id r).1) (e.kill id r).2 := by
  by_cases ho : e.Open
  · refine .kill ho ?_
    rintro _ ⟨⟩
    obtain ⟨op, stage⟩ := e
    cases stage with
    | finished result => exact absurd rfl (ho result)
    | _ => rfl
  · rw [kill_of_not_open ho]
    exact .idle rfl

theorem Unasked.stake (hu : e.Unasked) : e.stake = .out := by
  rcases hu with hu | hu <;> simp [Errand.stake, hu]

theorem Unasked.open (hu : e.Unasked) : e.Open := by
  intro result hf
  rcases hu with hu | hu <;> cases hu.symm.trans hf

theorem Move.open (m : e.Move id r d e' r') : e.Open := by
  intro result hf
  cases m with
  | queue hs => rcases hs with hs | hs <;> cases hs.symm.trans hf
  | gather hs | collect hs | hold hs | tick hs | act hs | expired hs | copy hs =>
    cases hs.symm.trans hf

theorem Sure.not_gaveUp (hs : e.Sure id r) : ¬ e.GaveUp := by
  rintro ⟨cause, hf⟩
  simp [Sure, stake, hf] at hs

/-- An errand that has the lock keeps it until it has a result, which is not to have given up. -/
theorem Sure.passes {ev : Hub.Event} (hs : e.Sure id r) (hp : e.Passes id r ev (some e') r')
    (hh : ev.task? ≠ some id → r.lock.holder = some id → r'.lock.holder = some id) :
    e'.Sure id r' ∨ (∃ result, e'.stage = .finished result) ∧ ¬ e'.GaveUp := by
  cases hp with
  | aside hne => exact .inl (hs.imp_right (.imp_right (.imp_right (hh hne))))
  | idle => exact .inl hs
  | move m =>
    cases m with
    | hold | tick => exact .inl (.inr (.inl rfl))
    | act =>
      refine .inr ⟨⟨_, rfl⟩, ?_⟩
      rintro ⟨cause, hf⟩
      exact e.operation.act_ne_lockUnavailable r cause (Stage.finished.inj hf)
    | copy =>
      refine .inr ⟨⟨_, rfl⟩, ?_⟩
      rintro ⟨cause, hf⟩
      cases hf
    | expired hq hne => simp [Sure, stake, hq, hne] at hs
    | queue hq => rcases hq with hq | hq <;> simp [Sure, stake, hq] at hs
    | gather hq | collect hq => simp [Sure, stake, hq] at hs
  | kill _ hk =>
    obtain rfl := hk e' rfl
    exact .inl (.inl rfl)
  | letGo =>
    refine .inr ⟨⟨_, rfl⟩, ?_⟩
    rintro ⟨cause, hf⟩
    cases hf

/-- A device write that completes no record has nothing to wait for but what is pending. -/
def Light (e : Errand) : Prop :=
  ∀ n data, e.operation = .write n data → newline ∉ data →
    e.stage = .fresh ∨ e.stage = .gathering ∨ e.stage = .killed ∨
      e.stage = .finished (.ok (.number data.length))

theorem needsStore_write {n : Nat} {data : Bytes} (hd : newline ∉ data) :
    (Operation.write n data).needsStore = false := by
  simpa [Operation.needsStore] using hd

theorem Move.light (m : e.Move id r d e' r') (h : e.Light) : e'.Light := by
  intro n data ho hd
  rw [m.deed.1] at ho
  have hs := h n data ho hd
  cases m with
  | gather => exact .inr (.inl rfl)
  | queue _ hg hn =>
    obtain ⟨hq, -⟩ := hg (r.handle n).device (by simp [ho, Operation.device?])
    have hn := hn hq
    rw [ho, needsStore_write hd] at hn
    cases hn
  | collect => exact .inr (.inr (.inr (by simp [ho, Operation.act])))
  | hold hq | tick hq | act hq | expired hq | copy hq => simp [hq] at hs

theorem kill_light (h : e.Light) (id : TaskId) (r : Resources) : (e.kill id r).1.Light := by
  unfold kill
  split
  case h_1 | h_2 => exact h
  case h_3 => exact fun _ _ _ _ => .inr (.inr (.inl rfl))

theorem letGo_light (h : e.Light) (r : Resources) : (e.letGo r).1.Light := by
  unfold letGo
  split
  case h_1 hs =>
    intro n data ho hd
    have hs' := h n data ho hd
    simp [hs] at hs'
  case h_2 => exact h

theorem Light.step? {n : Nat} {data : Bytes} (ho : e.operation = .write n data)
    (hd : newline ∉ data) (hs : e.stage = .gathering)
    (hh : (r.device (r.handle n).device).lock.holder = some id) :
    ∃ r', e.step? id r =
      some ({ e with stage := .finished (.ok (.number data.length)) }, r') := by
  simp [Errand.step?, hs, ho, Operation.device?, hh, needsStore_write hd, Operation.act]

end Errand

namespace Task

variable {ev : Hub.Event} {t t' : Task} {id : TaskId} {r r' : Resources} {d : Option Deed}

theorem Fresh.light (h : t.Fresh) : ∀ e ∈ t.errand?, e.Light := by
  intro e he
  cases t with
  | session => cases he
  | errand e' =>
    obtain rfl := Option.some.inj he
    exact fun _ _ _ _ => .inl h
  | ticker t =>
    have h : t.stage = .waiting ∨ t.stage = .killed := h
    rcases h with h | h <;> simp [errand?, h] at he

theorem Change.light (c : Change id r ev t d t' r') (h : ∀ e ∈ t.errand?, e.Light) :
    ∀ e ∈ t'.errand?, e.Light := by
  refine c.errand_forall (fun k time _ n data ho => ?_) Errand.Move.light
    (fun e he => Errand.kill_light he id r) (fun e he => Errand.letGo_light he r) h
  simp only [Ticker.operation] at ho
  split at ho <;> cases ho

theorem deed?_of_errand? {e : Errand} (he : t.errand? = some e) (id : TaskId) (r : Resources) :
    t.deed? id r = e.deed? id r := by
  cases t with
  | session => cases he
  | errand e' =>
    obtain rfl := Option.some.inj he
    rfl
  | ticker t => simp [deed?, Ticker.deed?, errand?_ticker.mp he]

theorem stake_of_errand? {e : Errand} (he : t.errand? = some e) : t.stake = e.stake := by
  cases t with
  | session => cases he
  | errand e' =>
    obtain rfl := Option.some.inj he
    rfl
  | ticker t => simp [stake, Ticker.stake, errand?_ticker.mp he]

theorem Change.passes {e : Errand} (c : Change id r ev t d t' r') (he : t.errand? = some e) :
    e.Passes id r ev t'.errand? r' := by
  cases c with
  | session | feed | allow => cases he
  | errand m =>
    obtain rfl := Option.some.inj he
    exact .move m
  | ticker m =>
    have hs := errand?_ticker.mp he
    cases m with
    | stop hs' | fire hs' => cases hs.symm.trans hs'
    | done hs' hf =>
      obtain rfl := Ticker.Stage.ticking.inj (hs.symm.trans hs')
      exact .done fun ho => ho _ hf
    | tick hs' m =>
      obtain rfl := Ticker.Stage.ticking.inj (hs.symm.trans hs')
      exact .move m
  | fire _ hs' => cases (errand?_ticker.mp he).symm.trans hs'
  | kill =>
    cases t with
    | session => cases he
    | errand e' =>
      obtain rfl := Option.some.inj he
      exact e'.kill_passes id r
    | ticker t =>
      have hs := errand?_ticker.mp he
      simp only [Task.kill, Ticker.kill, hs]
      by_cases ho : e.Open
      · refine .kill ho ?_
        rintro _ ⟨⟩
      · rw [Errand.kill_of_not_open ho]
        exact .done ho
  | letGo e' =>
    obtain rfl := Option.some.inj he
    simp only [Errand.letGo]
    split
    case h_1 hs => exact .letGo hs
    case h_2 => exact .idle rfl
  | warn t =>
    have hw : (Task.ticker { t with stopping := true }).errand? = some e := he
    rw [hw]
    exact .idle rfl

theorem ticker_move_begins {t t' : Ticker} {e : Errand} (m : t.Move id r d t' r')
    (hn : (ticker t).errand? = none) (he : (ticker t').errand? = some e) : e.stage = .fresh := by
  have he := errand?_ticker.mp he
  cases m with
  | stop | done => cases he
  | fire =>
    obtain rfl := Ticker.Stage.ticking.inj he
    rfl
  | tick hs => cases hn.symm.trans (errand?_ticker.mpr hs)

theorem Change.begins {e : Errand} (c : Change id r ev t d t' r') (hn : t.errand? = none)
    (he : t'.errand? = some e) : e.stage = .fresh := by
  cases c with
  | session | feed | allow => cases he
  | errand | letGo => cases hn
  | ticker m | fire m => exact ticker_move_begins m hn he
  | warn => cases hn.symm.trans he
  | kill =>
    cases t with
    | session => cases he
    | errand => cases hn
    | ticker t =>
      have he : (t.kill id r).1.stage = .ticking e := errand?_ticker.mp he
      unfold Ticker.kill at he
      split at he
      case h_1 | h_2 => cases he
      case h_3 | h_4 => cases hn.symm.trans (errand?_ticker.mpr he)

end Task

namespace Hub

variable {h h' : Hub} {ev : Event} {entry : Option Entry} {x : TaskId} {e : Errand}

def errand? (h : Hub) (x : TaskId) : Option Errand :=
  h.tasks[x]?.bind Task.errand?

theorem stake_of_errand? (he : h.errand? x = some e) : h.stake x = e.stake := by
  obtain ⟨t, ht, hte⟩ := Option.bind_eq_some_iff.mp he
  simp [stake, ht, Task.stake_of_errand? hte]

theorem lt_of_errand? (he : h.errand? x = some e) : x < h.tasks.length := by
  obtain ⟨t, ht, -⟩ := Option.bind_eq_some_iff.mp he
  exact (List.getElem?_eq_some_iff.mp ht).1

theorem Result.holder (hr : h.Result ev entry h') (hs : h.resources.lock.Serves h.stake)
    (hne : ev.task? ≠ some x) (hh : h.resources.lock.holder = some x) :
    h'.resources.lock.holder = some x := by
  cases hr with
  | spawn | elapse | nothing => exact hh
  | @change _ i t t' d r' ht hc =>
    have hev : ev.task? = some i := by cases hc <;> rfl
    have hk : h.stake i = t.stake := by simp [stake, ht]
    exact hs.holder_of_turn (hk ▸ hc.turn) (fun hx => hne (hx ▸ hev)) hh

theorem Result.passes (hr : h.Result ev entry h') (he : h.errand? x = some e) :
    e.Passes x h.resources ev (h'.errand? x) h'.resources := by
  obtain ⟨t, ht, hte⟩ := Option.bind_eq_some_iff.mp he
  obtain ⟨hlt, -⟩ := List.getElem?_eq_some_iff.mp ht
  cases hr with
  | spawn u =>
    have hsame : (h.tasks ++ [u])[x]? = some t := (List.getElem?_append_left hlt).trans ht
    simp only [errand?, hsame, Option.bind_some, hte]
    exact .aside nofun
  | elapse =>
    simp only [errand?, ht, Option.bind_some, hte]
    exact .aside nofun
  | nothing =>
    rw [he]
    by_cases hx : ev.task? = some x
    · exact .idle hx
    · exact .aside hx
  | @change _ i u u' d r' hu hc =>
    have hev : ev.task? = some i := by cases hc <;> rfl
    by_cases hi : i = x
    · subst hi
      obtain rfl : u = t := Option.some.inj (hu.symm.trans ht)
      have hput : (h.put i (u', r')).errand? i = u'.errand? := by simp [errand?, put, hlt]
      rw [hput]
      exact hc.passes hte
    · have hsame : (h.put i (u', r')).errand? x = some e := by
        simpa [errand?, put, hi] using he
      rw [hsame]
      exact .aside fun hx => hi (Option.some.inj (hev.symm.trans hx))

theorem Result.begins (hr : h.Result ev entry h') (hp : ev.Proper) (hn : h.errand? x = none)
    (he : h'.errand? x = some e) : e.stage = .fresh := by
  obtain ⟨t, ht, hte⟩ := Option.bind_eq_some_iff.mp he
  have hsame : h.tasks[x]? ≠ some t := fun h => by simp [errand?, h, hte] at hn
  cases hr with
  | elapse | nothing => exact absurd ht hsame
  | spawn u =>
    rcases task_spawn ht with ⟨-, rfl⟩ | ⟨-, ht⟩
    · cases t with
      | session => cases hte
      | errand e' =>
        obtain rfl := Option.some.inj hte
        exact hp
      | ticker t =>
        have hp : t.stage = .waiting ∨ t.stage = .killed := hp
        have hs := Task.errand?_ticker.mp hte
        rcases hp with hp | hp <;> cases hp.symm.trans hs
    · exact absurd ht hsame
  | @change _ i u u' d r' hu hc =>
    rcases task_put ht with ⟨rfl, rfl⟩ | ⟨-, ht⟩
    · refine hc.begins ?_ hte
      simpa [errand?, hu] using hn
    · exact absurd ht hsame

theorem part?_of_errand? (he : h.errand? x = some e) (hd : e.deed? x h.resources = none)
    (hx : ev.task? = some x) : h.part? ev = none := by
  obtain ⟨t, ht, hte⟩ := Option.bind_eq_some_iff.mp he
  cases ev with
  | step i =>
    obtain rfl : i = x := Option.some.inj hx
    simp [part?, ht, Task.deed?_of_errand? hte, hd]
  | _ => rfl

/-- To end a task before its operation has asked gives back what is pending on a device. -/
theorem resources_kill (he : h.errand? x = some e) (hu : e.Unasked) :
    (h.next (.kill x)).resources = e.leaveDevice x (h.resources.withdraw x) := by
  have hk : (e.kill x h.resources).2 = e.leaveDevice x (h.resources.withdraw x) := by
    rcases hu with hu | hu <;> simp [Errand.kill, hu]
  obtain ⟨t, ht, hte⟩ := Option.bind_eq_some_iff.mp he
  cases t with
  | session => cases hte
  | errand e' =>
    obtain rfl := Option.some.inj hte
    simpa [next, ht, put, Task.kill] using hk
  | ticker t =>
    have hs := Task.errand?_ticker.mp hte
    simpa [next, ht, put, Task.kill, Ticker.kill, hs] using hk

end Hub

end CommandLog
