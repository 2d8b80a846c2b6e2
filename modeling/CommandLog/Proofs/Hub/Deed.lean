import CommandLog.Session
import CommandLog.Proofs.Framing.Lines
import CommandLog.Proofs.Hub.Ledger
import CommandLog.Proofs.Store.Growth

/-! # Deeds

A task acts on the log in single steps. What it does in such a step is its deed: the request of a
session, or the operation of an errand. Carried out when nothing interferes, a deed has an answer
and leaves a ledger; it appends certain records and changes nothing else in the store, unless it
clears the store.
-/

namespace CommandLog

/-- What a task does to the log in the one step in which it acts. -/
inductive Deed where
  | exchange (request : Option Command)
  | errand (operation : Operation)
  deriving DecidableEq

/-- What a deed gives back: to a session the outcome with the bytes to send, or the failure. -/
inductive Answer where
  | exchange (result : Except LogError (Session.Outcome × Bytes))
  | errand (result : Except LogError Reply)

def Session.exchange (request : Option Command) (r : Resources) :
    Except LogError (Outcome × Bytes) × Resources :=
  match request with
  | some (.append record) =>
    let (after, evicted) := r.append record
    let body := after.store.readFrom 0
    (.ok (.appended evicted body.length, body), after)
  | some (.seek d) =>
    match r.store.locate d with
    | .ok offset =>
      let body := r.store.readFrom offset
      (.ok (.sought offset body.length, body), r)
    | .error cause => (.error cause, r)
  | none =>
    let body := r.store.readFrom 0
    (.ok (.replayed body.length, body), r)

namespace Deed

variable {d : Deed} {r r' : Resources}

/-- What a deed does when nothing interferes. -/
def act (d : Deed) (r : Resources) : Answer × Resources :=
  match d with
  | exchange request =>
    let (result, r) := Session.exchange request r
    (.exchange result, r)
  | errand op =>
    let (result, r) := op.act r
    (.errand result, r)

def locks : Deed → Bool
  | exchange _ => true
  | errand op => op.needsStore

def records (d : Deed) (r : Resources) : List Record :=
  match d with
  | exchange (some (.append record)) => [record]
  | exchange _ => []
  | errand (.append record) | errand (.tick record) => [record]
  | errand (.write h data) => (Device.assemble (r.device (r.handle h).device).pending data).1
  | errand _ => []

def carryOut (ds : List Deed) (r : Resources) : Resources :=
  ds.foldl (fun r d => (d.act r).2) r

@[simp] theorem carryOut_concat (ds : List Deed) (d : Deed) (r : Resources) :
    carryOut (ds ++ [d]) r = (d.act (carryOut ds r)).2 := by
  simp [carryOut]

theorem act_congr (h : r.ledger = r'.ledger) :
    (d.act r).1 = (d.act r').1 ∧ (d.act r).2.ledger = (d.act r').2.ledger := by
  have hs : r.store = r'.store := Resources.store_congr h
  cases d with
  | exchange request =>
    cases request with
    | none => exact ⟨by simp [act, Session.exchange, hs], h⟩
    | some command =>
      cases command with
      | append record =>
        refine ⟨?_, Resources.ledger_append h record⟩
        simp [act, Session.exchange, Resources.append, hs]
      | seek directive =>
        simp only [act, Session.exchange, hs]
        split <;> exact ⟨rfl, h⟩
  | errand op =>
    obtain ⟨ha, hl⟩ := op.act_congr h
    exact ⟨congrArg Answer.errand ha, hl⟩

/-- A deed appends its records, in order and together, or clears the store. -/
theorem store_act (d : Deed) (r : Resources) :
    (d.act r).2.store =
      if d = .errand .clear then r.store.clear else r.store.appendAll (d.records r) := by
  cases d with
  | exchange request =>
    cases request with
    | none => rfl
    | some command =>
      cases command with
      | append record => rfl
      | seek directive =>
        simp only [act, Session.exchange]
        split <;> rfl
  | errand op =>
    cases op with
    | seekTo h d => simp only [act, Operation.act]; split <;> rfl
    | seek h target => simp only [act, Operation.act]; split <;> rfl
    | clear => rfl
    | _ => rfl

theorem sound_act (h : r.store.Sound) (d : Deed) : (d.act r).2.store.Sound := by
  rw [store_act]
  split
  · exact h.clear
  · exact h.appendAll _

/-- Whoever stores a record sees the content right after that, with the record at its end. -/
theorem act_append (h : r.store.Sound) (record : Record) :
    let d : Deed := .exchange (some (.append record))
    let after := (d.act r).2.store
    (d.act r).1 = .exchange
        (.ok (.appended r.store.isFull after.content.length, after.content)) ∧
      ∃ older, after.toList = older ++ [record] := by
  intro d after
  constructor
  · have hb : after.readFrom 0 = after.content := by
      rw [(sound_act h d).readFrom, List.drop_zero]
    have hf : (r.append record).2 = r.store.isFull := r.store.append_snd record
    rw [← hb, ← hf]
    rfl
  · obtain ⟨rs, hrs⟩ := h
    obtain ⟨c, hc⟩ := Nat.exists_eq_succ_of_ne_zero hrs.capacity_pos.ne'
    refine ⟨rs.rtake c, (hrs.append record).toList.trans ?_⟩
    rw [hc, List.rtake_concat_succ]

theorem assemble_of_not_mem {data : Bytes} (h : newline ∉ data) (pending : Bytes) :
    Device.assemble pending data = ([], pending ++ data) := by
  simp [Device.assemble, Bytes.splitLines_of_not_mem h]

theorem store_act_of_not_locks (h : d.locks = false) (r : Resources) :
    (d.act r).2.store = r.store := by
  cases d with
  | exchange => cases h
  | errand op =>
    cases op with
    | write n data =>
      have hn : newline ∉ data := by simpa [locks, Operation.needsStore] using h
      simp [store_act, records, assemble_of_not_mem hn, Store.appendAll]
    | _ => cases h

end Deed

end CommandLog
