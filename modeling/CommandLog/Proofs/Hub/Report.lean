import CommandLog.Proofs.Hub.Run

/-! # What tasks report

The deeds of one task with their answers are its account. At every stage a task is about to
report, or has reported, exactly what its account says: a session sends the body of its answer and
nothing else, an errand returns its answer, and without a deed there is nothing to report but a
record that could not be read or a lock that was not obtained in time.
-/

namespace CommandLog

/-- The deeds of a task with their answers. -/
abbrev Account := List (Deed × Answer)

def Deed.account (r : Resources) (d : Option Deed) : Account :=
  (d.map fun d => (d, (d.act r).1)).toList

@[simp] theorem Deed.account_none (r : Resources) : Deed.account r none = [] := rfl

theorem Deed.mem_account {r : Resources} {d : Option Deed} {x : Deed} {a : Answer} :
    (x, a) ∈ Deed.account r d ↔ d = some x ∧ a = (x.act r).1 := by
  cases d with
  | none => simp
  | some d =>
    simp only [account, Option.map_some, Option.toList_some, List.mem_singleton, Prod.mk.injEq,
      Option.some.injEq]
    constructor
    · rintro ⟨rfl, rfl⟩
      exact ⟨rfl, rfl⟩
    · rintro ⟨rfl, rfl⟩
      exact ⟨rfl, rfl⟩

namespace Session

variable {s s' : Session} {id : TaskId} {r r' : Resources} {d : Option Deed} {mine : Account}

/-- The result of a session with what its peer got, by its account. -/
inductive Told (sent : Bytes) : Account → Except ServiceError Outcome → Prop where
  | unread {cause : LogError} : sent = [] → cause.isFraming = true →
      Told sent [] (.error (.log cause))
  | late {span : Span} : sent = [] →
      Told sent [] (.error (.log (.lockUnavailable (.timedOut span))))
  | astray {d : Directive} : sent = [] →
      Told sent
        [(.exchange (some (.seek d)),
          .exchange (.error (.outOfRange d.index.toNat d.offset.toNat)))]
        (.error (.log (.outOfRange d.index.toNat d.offset.toNat)))
  | cut {request : Option Command} {outcome : Outcome} {body : Bytes} {cause : IoError} :
      sent <+: body →
      Told sent [(.exchange request, .exchange (.ok (outcome, body)))] (.error (.io none cause))
  | done {request : Option Command} {outcome : Outcome} :
      Told sent [(.exchange request, .exchange (.ok (outcome, sent)))] (.ok outcome)

/-- What a session is about to report, or has reported, is what its account says. -/
def Reports (s : Session) (store : Store) (mine : Account) : Prop :=
  match s.stage with
  | .reading | .queued _ _ => mine = [] ∧ s.wire.sent = []
  | .copying record evicted =>
    let body := store.readFrom 0
    mine = [(.exchange (some (.append record)),
      .exchange (.ok (.appended evicted body.length, body)))] ∧ s.wire.sent = []
  | .replying outcome rest =>
    ∃ request, mine = [(.exchange request, .exchange (.ok (outcome, s.wire.sent ++ rest)))]
  | .flushing outcome =>
    ∃ request, mine = [(.exchange request, .exchange (.ok (outcome, s.wire.sent)))]
  | .closing result | .closed result => Told s.wire.sent mine result
  | .killed =>
    mine = [] ∧ s.wire.sent = [] ∨
      ∃ request result, mine = [(.exchange request, .exchange result)] ∧
        match result with
        | .ok (_, body) => s.wire.sent <+: body
        | .error _ => s.wire.sent = []

theorem Fresh.reports (h : s.Fresh) (store : Store) : s.Reports store [] := by
  simp only [Reports, h.reading, true_and]
  exact h.sent

theorem Move.reports (m : s.Move id r d s' r') (h : s.Reports r.store mine) :
    s'.Reports r'.store (mine ++ Deed.account r d) := by
  cases m with
  | receive hs | frame hs | ended hs =>
    simp only [Reports, hs] at h ⊢
    simpa [Deed.account] using h
  | broken hs _ hf =>
    simp only [Reports, hs] at h
    obtain ⟨rfl, hsent⟩ := h
    exact .unread hsent hf
  | expired hs =>
    simp only [Reports, hs] at h
    obtain ⟨rfl, hsent⟩ := h
    exact .late hsent
  | store hs =>
    simp only [Reports, hs] at h
    obtain ⟨rfl, hsent⟩ := h
    exact ⟨rfl, hsent⟩
  | @seek d _ _ hs _ ho =>
    simp only [Reports, hs] at h
    obtain ⟨rfl, hsent⟩ := h
    refine ⟨some (.seek d), ?_⟩
    simp [Deed.account, Deed.act, exchange, ho, hsent]
  | @astray d _ _ hs _ ho =>
    simp only [Reports, hs] at h
    obtain ⟨rfl, hsent⟩ := h
    obtain rfl := Store.resolve_eq_error ho
    have ha : Deed.account r (some (.exchange (some (.seek d)))) = [(.exchange (some (.seek d)),
        .exchange (.error (.outOfRange d.index.toNat d.offset.toNat)))] := by
      simp [Deed.account, Deed.act, exchange, ho]
    rw [List.nil_append, ha]
    exact .astray hsent
  | replay hs =>
    simp only [Reports, hs] at h
    obtain ⟨rfl, hsent⟩ := h
    refine ⟨none, ?_⟩
    simp [Deed.account, Deed.act, exchange, hsent]
  | @copy record _ hs =>
    simp only [Reports, hs] at h
    obtain ⟨rfl, hsent⟩ := h
    refine ⟨some (.append record), ?_⟩
    simp [Deed.account, hsent]
  | send hs =>
    simp only [Reports, hs] at h
    obtain ⟨request, rfl⟩ := h
    refine ⟨request, ?_⟩
    simp [Deed.account]
  | cut hs =>
    simp only [Reports, hs] at h
    obtain ⟨request, rfl⟩ := h
    exact .cut (List.prefix_append _ _)
  | sent hs =>
    simp only [Reports, hs] at h
    obtain ⟨request, rfl⟩ := h
    refine ⟨request, ?_⟩
    simp [Deed.account]
  | flush hs =>
    simp only [Reports, hs] at h
    obtain ⟨request, rfl⟩ := h
    exact .done
  | unflushed hs =>
    simp only [Reports, hs] at h
    obtain ⟨request, rfl⟩ := h
    exact .cut (List.prefix_refl _)
  | close hs =>
    simp only [Reports, hs] at h
    rwa [Deed.account_none, List.append_nil]

theorem reports_kill (h : s.Reports r.store mine) (id : TaskId) :
    (s.kill id r).1.Reports r.store mine := by
  unfold kill
  split
  case h_1 | h_2 => exact h
  case h_3 =>
    simp only [Reports] at h ⊢
    split at h
    case h_1 | h_2 => exact .inl h
    case h_3 =>
      obtain ⟨rfl, hsent⟩ := h
      exact .inr ⟨_, _, rfl, hsent ▸ List.nil_prefix⟩
    case h_4 =>
      obtain ⟨request, rfl⟩ := h
      exact .inr ⟨request, _, rfl, List.prefix_append _ _⟩
    case h_5 =>
      obtain ⟨request, rfl⟩ := h
      exact .inr ⟨request, _, rfl, List.prefix_refl _⟩
    case h_6 | h_7 =>
      cases h with
      | unread hsent | late hsent => exact .inl ⟨rfl, hsent⟩
      | astray hsent => exact .inr ⟨_, _, rfl, hsent⟩
      | cut hp => exact .inr ⟨_, _, rfl, hp⟩
      | done => exact .inr ⟨_, _, rfl, List.prefix_refl _⟩
    case h_8 => exact h

/-- The store matters to a session that is about to report only while it has the lock. -/
theorem Reports.congr {store store' : Store} (h : s.Reports store mine)
    (hi : s.stake = .inside → store' = store) : s.Reports store' mine := by
  unfold Reports at h ⊢
  split at h
  case h_3 hs => rwa [hi (by simp [stake, hs])]
  all_goals exact h

end Session

namespace Errand

variable {e e' : Errand} {id : TaskId} {r r' : Resources} {d : Option Deed} {mine : Account}

def Reports (e : Errand) (mine : Account) : Prop :=
  match e.stage with
  | .fresh | .gathering | .queued _ => mine = []
  | .copying _ reply => mine = [(.errand e.operation, .errand (.ok reply))]
  | .holding => mine = [(.errand e.operation, .errand (.ok .held))]
  | .finished result =>
    mine = [(.errand e.operation, .errand result)] ∨
      mine = [] ∧ ∃ span, result = .error (.lockUnavailable (.timedOut span))
  | .killed => mine = [] ∨ ∃ result, mine = [(.errand e.operation, .errand result)]

theorem Move.reports (m : e.Move id r d e' r') (h : e.Reports mine) :
    e'.Reports (mine ++ Deed.account r d) := by
  cases m with
  | gather hs =>
    simp only [Reports, hs] at h
    simpa [Reports, Deed.account] using h
  | queue hs =>
    have h : mine = [] := by rcases hs with hs | hs <;> simpa [Reports, hs] using h
    simpa [Reports, Deed.account] using h
  | collect hs | act hs =>
    simp only [Reports, hs] at h
    subst h
    exact .inl rfl
  | hold hs _ ho =>
    simp only [Reports, hs] at h
    subst h
    simp [Reports, Deed.account, Deed.act, ho, Operation.act]
  | tick hs _ ho =>
    simp only [Reports, hs] at h
    subst h
    simp [Reports, Deed.account, Deed.act, ho, Operation.act]
  | expired hs =>
    simp only [Reports, hs] at h
    subst h
    exact .inr ⟨rfl, _, rfl⟩
  | copy hs =>
    simp only [Reports, hs] at h
    subst h
    exact .inl rfl

theorem reports_kill (h : e.Reports mine) (id : TaskId) (r : Resources) :
    (e.kill id r).1.Reports mine := by
  unfold kill
  split
  case h_1 | h_2 => exact h
  case h_3 =>
    simp only [Reports] at h ⊢
    split at h
    case h_1 | h_2 | h_3 => exact .inl h
    case h_4 | h_5 => exact .inr ⟨_, h⟩
    case h_6 => exact h.elim (fun h => .inr ⟨_, h⟩) (fun h => .inl h.1)
    case h_7 => exact h

theorem reports_letGo (h : e.Reports mine) (r : Resources) : (e.letGo r).1.Reports mine := by
  unfold letGo
  split
  case h_1 hs =>
    simp only [Reports, hs] at h
    exact .inl h
  case h_2 => exact h

end Errand

namespace Ticker

variable {t t' : Ticker} {id : TaskId} {r r' : Resources} {d : Option Deed} {mine : Account}

/-- All deeds of a ticker append time records; those of the errand under way come last. -/
structure Reports (t : Ticker) (mine : Account) : Prop where
  ticks : ∀ x ∈ mine, ∃ record, x.1 = .errand (t.operation record)
  latest : ∀ e, t.stage = .ticking e →
    (∃ record, e.operation = t.operation record) ∧
      ∃ earlier last, mine = earlier ++ last ∧ e.Reports last

theorem Move.reports (m : t.Move id r d t' r') (h : t.Reports mine) :
    t'.Reports (mine ++ Deed.account r d) := by
  cases m with
  | stop | done =>
    rw [Deed.account_none, List.append_nil]
    exact ⟨h.ticks, fun _ he => nomatch he⟩
  | @fire due time hs =>
    rw [Deed.account_none, List.append_nil]
    refine ⟨h.ticks, ?_⟩
    rintro _ ⟨⟩
    exact ⟨⟨Timestamp.record time, rfl⟩, mine, [], (List.append_nil mine).symm, rfl⟩
  | @tick e e' d r' hs hm =>
    obtain ⟨⟨record, ho⟩, earlier, last, rfl, hr⟩ := h.latest e hs
    obtain ⟨ho', hd⟩ := hm.deed
    constructor
    · intro x hx
      rcases List.mem_append.mp hx with hx | hx
      · exact h.ticks x hx
      · obtain ⟨y, hy, rfl⟩ := by simpa [Deed.account] using hx
        exact ⟨record, by rw [hd y hy, ho]; rfl⟩
    · rintro _ ⟨⟩
      exact ⟨⟨record, ho'.trans ho⟩, earlier, _, List.append_assoc _ _ _, hm.reports hr⟩

theorem reports_kill (h : t.Reports mine) (id : TaskId) (r : Resources) :
    (t.kill id r).1.Reports mine := by
  unfold kill
  split
  case h_1 | h_2 => exact ⟨h.ticks, fun _ he => nomatch he⟩
  case h_3 | h_4 => exact h

end Ticker

namespace Task

variable {ev : Hub.Event} {t t' : Task} {id : TaskId} {r r' : Resources} {d : Option Deed}
  {mine : Account}

def Reports (t : Task) (store : Store) (mine : Account) : Prop :=
  match t with
  | session s => s.Reports store mine
  | errand e => e.Reports mine
  | ticker t => t.Reports mine

theorem Fresh.reports (h : t.Fresh) (store : Store) : t.Reports store [] := by
  cases t with
  | session s => exact Session.Fresh.reports h store
  | errand e =>
    have h : e.stage = .fresh := h
    simp [Reports, Errand.Reports, h]
  | ticker t =>
    have h : t.stage = .waiting ∨ t.stage = .killed := h
    exact ⟨by simp, fun e he => by simp [he] at h⟩

theorem Change.reports (c : Change id r ev t d t' r') (h : t.Reports r.store mine) :
    t'.Reports r'.store (mine ++ Deed.account r d) := by
  cases c with
  | session m => exact m.reports h
  | errand m => exact m.reports h
  | ticker m | fire m => exact m.reports h
  | kill =>
    rw [Deed.account_none, List.append_nil]
    cases t with
    | session s =>
      have hl : (s.kill id r).2.store = r.store := Resources.store_congr (s.ledger_kill id r)
      have hk := Session.reports_kill h id
      rwa [← hl] at hk
    | errand e => exact Errand.reports_kill h id r
    | ticker t => exact Ticker.reports_kill h id r
  | letGo e =>
    rw [Deed.account_none, List.append_nil]
    exact Errand.reports_letGo h r
  | feed | allow =>
    rw [Deed.account_none, List.append_nil]
    exact h
  | warn t =>
    rw [Deed.account_none, List.append_nil]
    exact ⟨h.ticks, h.latest⟩

theorem Reports.congr {store store' : Store} (h : t.Reports store mine)
    (hi : t.stake = .inside → store' = store) : t.Reports store' mine := by
  cases t with
  | session s => exact Session.Reports.congr h hi
  | errand | ticker => exact h

end Task

end CommandLog
