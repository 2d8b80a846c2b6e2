import CommandLog.Proofs.Hub.Serial
import CommandLog.Proofs.Transcript.File

/-! # Copying records to the transcript

A session or a tick appends its record in one step and copies it to the transcript in its next one;
in between it has the lock. Nothing else that such tasks do touches the store or the transcript,
unless a task is ended with its record not yet copied.
-/

namespace CommandLog

open FairLock

def Operation.Copies : Operation → Prop
  | append _ | write _ _ | clear => False
  | _ => True

/-- What a deed of a session or an errand does with the transcript. -/
def Deed.Copies : Deed → Prop
  | exchange _ => True
  | errand op => op.Copies

def Answer.evicted : Answer → Bool
  | exchange (.ok (.appended flag _, _)) => flag
  | errand (.ok (.evicted flag)) => flag
  | _ => false

namespace Operation

variable {op : Operation}

@[simp] theorem file_act (op : Operation) (r : Resources) : (op.act r).2.file = r.file := by
  cases op with
  | seekTo h d => simp only [act]; split <;> rfl
  | seek h target => simp only [act]; split <;> rfl
  | _ => rfl

end Operation

namespace Deed

variable {d : Deed} {r : Resources}

theorem Copies.records (h : d.Copies) : d.records r = [] ∨
    ∃ record, d.records r = [record] ∧ (d.act r).1.evicted = r.store.isFull := by
  cases d with
  | exchange request =>
    rcases request with _ | directive | record
    · exact .inl rfl
    · exact .inl rfl
    · exact .inr ⟨record, rfl, r.store.append_snd record⟩
  | errand op =>
    cases op with
    | append | write | clear => exact h.elim
    | tick record => exact .inr ⟨record, rfl, r.store.append_snd record⟩
    | _ => exact .inl rfl

end Deed

/-- What one step of a task does to the store and the transcript, with the records it appends and
the record that it has still to copy before and after. -/
inductive Copying (r : Resources) :
    List Record → Option Record → Option Record → Resources → Prop where
  | keep {x : Option Record} {r' : Resources} : r'.store = r.store → r'.file = r.file →
      Copying r [] x x r'
  | append {record : Record} {r' : Resources} : r'.store = (r.append record).1.store →
      r'.file = r.file → Copying r [record] none (some record) r'
  | copy {record : Record} {r' : Resources} : r'.store = r.store →
      r'.file = (r.transcribe record).file → Copying r [] (some record) none r'

namespace Session

variable {s s' : Session} {id : TaskId} {r r' : Resources} {d : Option Deed}

/-- The record that is in the store and not yet in the transcript. -/
def copying? (s : Session) : Option Record :=
  match s.stage with
  | .copying record _ => some record
  | _ => none

theorem Move.copying (m : s.Move id r d s' r') :
    Copying r (d.elim [] (·.records r)) s.copying? s'.copying? r' := by
  cases m with
  | store hs => simpa [copying?, hs, Deed.records] using .append rfl rfl
  | copy hs => simpa [copying?, hs, reply] using .copy (r.store_transcribe _) rfl
  | seek hs | replay hs => simpa [copying?, hs, reply, Deed.records] using .keep rfl rfl
  | astray hs => simpa [copying?, hs, Deed.records] using .keep rfl rfl
  | receive hs | frame hs | ended hs | broken hs | expired hs | send hs | cut hs | sent hs
  | flush hs | unflushed hs | close hs => simpa [copying?, hs] using .keep rfl rfl

theorem stake_of_copying? (h : s.copying? ≠ none) : s.stake = .inside := by
  unfold copying? at h
  split at h
  case h_1 hs => simp [stake, hs]
  case h_2 => exact absurd rfl h

theorem copying_kill (h : s.copying? = none) (id : TaskId) (r : Resources) :
    Copying r [] s.copying? (s.kill id r).1.copying? (s.kill id r).2 := by
  unfold kill
  split
  case h_1 | h_2 => exact .keep rfl rfl
  case h_3 =>
    rw [h]
    exact .keep rfl rfl

end Session

namespace Errand

variable {e e' : Errand} {id : TaskId} {r r' : Resources} {d : Option Deed}

def copying? (e : Errand) : Option Record :=
  match e.stage with
  | .copying record _ => some record
  | _ => none

theorem file_leaveDevice (e : Errand) (id : TaskId) (r : Resources) :
    (e.leaveDevice id r).file = r.file := by
  unfold leaveDevice
  split <;> rfl

theorem store_leaveDevice (e : Errand) (id : TaskId) (r : Resources) :
    (e.leaveDevice id r).store = r.store :=
  Resources.store_congr (e.ledger_leaveDevice id r)

theorem Move.copying (m : e.Move id r d e' r') (hc : e.operation.Copies) :
    Copying r (d.elim [] (·.records r)) e.copying? e'.copying? r' := by
  cases m with
  | gather hs => simpa [copying?, hs] using .keep rfl rfl
  | queue hs => rcases hs with hs | hs <;> simpa [copying?, hs] using .keep rfl rfl
  | collect hs hn =>
    cases ho : e.operation with
    | write => exact (ho ▸ hc).elim
    | _ => cases ho ▸ hn
  | hold hs _ ho => simpa [copying?, hs, ho, Deed.records] using .keep rfl rfl
  | tick hs _ ho => simpa [copying?, hs, ho, Deed.records] using .append rfl rfl
  | act hs _ ht =>
    have hrecords : (Deed.errand e.operation).records r = [] := by
      cases ho : e.operation with
      | tick record => exact absurd ho (ht record)
      | append | write | clear => exact (ho ▸ hc).elim
      | _ => rfl
    have hclear : e.operation ≠ .clear := by
      intro ho
      exact (ho ▸ hc).elim
    have hstore := (Deed.errand e.operation).store_act r
    rw [if_neg (by simpa using hclear), hrecords] at hstore
    rw [Option.elim_some, hrecords]
    simp only [copying?, hs]
    exact .keep ((e.store_leaveDevice ..).trans hstore)
      ((e.file_leaveDevice ..).trans (e.operation.file_act r))
  | expired hs =>
    simp only [copying?, hs]
    exact .keep (e.store_leaveDevice ..) (e.file_leaveDevice ..)
  | copy hs => simpa [copying?, hs] using .copy (r.store_transcribe _) rfl

theorem stake_of_copying? (h : e.copying? ≠ none) : e.stake = .inside := by
  unfold copying? at h
  split at h
  case h_1 hs => simp [stake, hs]
  case h_2 => exact absurd rfl h

theorem copying_kill (h : e.copying? = none) (id : TaskId) (r : Resources) :
    Copying r [] e.copying? (e.kill id r).1.copying? (e.kill id r).2 := by
  unfold kill
  split
  case h_1 | h_2 => exact .keep rfl rfl
  case h_3 =>
    rw [h]
    exact .keep (e.store_leaveDevice ..) (e.file_leaveDevice ..)

end Errand

namespace Ticker

variable {t t' : Ticker} {id : TaskId} {r r' : Resources} {d : Option Deed}

def copying? (t : Ticker) : Option Record :=
  match t.stage with
  | .ticking e => e.copying?
  | _ => none

structure Copies (t : Ticker) : Prop where
  copies : t.copies = true
  ticking : ∀ e, t.stage = .ticking e → e.operation.Copies

theorem Move.copying (m : t.Move id r d t' r') (hc : t.Copies) :
    Copying r (d.elim [] (·.records r)) t.copying? t'.copying? r' := by
  cases m with
  | stop hs => simpa [copying?, hs] using .keep rfl rfl
  | fire hs => simpa [copying?, hs, Errand.copying?] using .keep rfl rfl
  | done hs he => simpa [copying?, hs, Errand.copying?, he] using .keep rfl rfl
  | tick hs m => simpa [copying?, hs] using m.copying (hc.ticking _ hs)

theorem copying_kill (h : t.copying? = none) (id : TaskId) (r : Resources) :
    Copying r [] t.copying? (t.kill id r).1.copying? (t.kill id r).2 := by
  rw [h]
  unfold kill
  split
  case h_2 e hs =>
    simp only [copying?, hs] at h
    have hk := Errand.copying_kill h id r
    rw [h] at hk
    generalize (e.kill id r).1.copying? = x at hk
    cases hk with
    | keep hstore hfile => exact .keep hstore hfile
  case h_1 => exact .keep rfl rfl
  case h_3 | h_4 =>
    rw [h]
    exact .keep rfl rfl

theorem Move.copies (m : t.Move id r d t' r') (hc : t.Copies) : t'.Copies := by
  cases m with
  | stop | done =>
    refine ⟨hc.copies, ?_⟩
    rintro _ ⟨⟩
  | fire =>
    refine ⟨hc.copies, ?_⟩
    rintro _ ⟨⟩
    simp [operation, hc.copies, Operation.Copies]
  | tick hs m =>
    refine ⟨hc.copies, ?_⟩
    rintro _ ⟨⟩
    rw [m.deed.1]
    exact hc.ticking _ hs

end Ticker

namespace Task

variable {ev : Hub.Event} {t t' : Task} {id : TaskId} {r r' : Resources} {d : Option Deed}

def copying? : Task → Option Record
  | session s => s.copying?
  | errand e => e.copying?
  | ticker t => t.copying?

/-- Whatever the task stores goes into the transcript as well. -/
def Copies : Task → Prop
  | session _ => True
  | errand e => e.operation.Copies
  | ticker t => t.Copies

theorem Fresh.copying? (h : t.Fresh) : t.copying? = none := by
  cases t with
  | session s => simp [Task.copying?, Session.copying?, Session.Fresh.reading h]
  | errand e =>
    have h : e.stage = .fresh := h
    simp [Task.copying?, Errand.copying?, h]
  | ticker t =>
    have h : t.stage = .waiting ∨ t.stage = .killed := h
    rcases h with h | h <;> simp [Task.copying?, Ticker.copying?, h]

theorem stake_of_copying? (h : t.copying? ≠ none) : t.stake = .inside := by
  cases t with
  | session s => exact Session.stake_of_copying? h
  | errand e => exact Errand.stake_of_copying? h
  | ticker t =>
    simp only [copying?, Ticker.copying?] at h
    split at h
    case h_1 hs => simpa [stake, Ticker.stake, hs] using Errand.stake_of_copying? h
    case h_2 => exact absurd rfl h

theorem copying_kill (h : t.copying? = none) (id : TaskId) (r : Resources) :
    Copying r [] t.copying? (t.kill id r).1.copying? (t.kill id r).2 := by
  cases t with
  | session s => exact Session.copying_kill h id r
  | errand e => exact Errand.copying_kill h id r
  | ticker t => exact Ticker.copying_kill h id r

/-- Every change of such a task, unless it ends the task before it has copied, is one step. -/
theorem Change.copying (c : Change id r ev t d t' r') (hc : t.Copies)
    (hk : ev = .kill id → t.copying? = none) :
    Copying r (d.elim [] (·.records r)) t.copying? t'.copying? r' := by
  cases c with
  | session m => exact m.copying
  | errand m => exact m.copying hc
  | ticker m | fire m => exact m.copying hc
  | kill => exact copying_kill (hk rfl) id r
  | letGo e =>
    simp only [Errand.letGo]
    split
    case h_1 hs => simpa [copying?, Errand.copying?, hs] using .keep rfl rfl
    case h_2 => exact .keep rfl rfl
  | feed | allow | warn => exact .keep rfl rfl

theorem Change.copies (c : Change id r ev t d t' r') (hc : t.Copies) : t'.Copies := by
  cases c with
  | session | feed | allow => trivial
  | errand m =>
    change Operation.Copies _
    rw [m.deed.1]
    exact hc
  | ticker m | fire m => exact m.copies hc
  | kill =>
    cases t with
    | session => trivial
    | errand e =>
      change (e.kill id r).1.operation.Copies
      rw [e.operation_kill]
      exact hc
    | ticker t =>
      simp only [Task.kill, Ticker.kill]
      split
      case h_1 | h_2 =>
        refine ⟨hc.copies, ?_⟩
        rintro _ ⟨⟩
      case h_3 | h_4 => exact hc
  | letGo e =>
    simp only [Errand.letGo]
    split <;> exact hc
  | warn => exact ⟨hc.copies, hc.ticking⟩

theorem Change.deed_copies {x : Deed} (c : Change id r ev t (some x) t' r') (hc : t.Copies) :
    x.Copies := by
  cases c with
  | session m =>
    obtain ⟨request, deadline, rfl, -⟩ := m.asked rfl
    trivial
  | errand m =>
    obtain rfl := m.deed.2 x rfl
    exact hc
  | ticker m =>
    cases m with
    | tick hs m =>
      obtain rfl := m.deed.2 x rfl
      exact hc.ticking _ hs

end Task

end CommandLog
