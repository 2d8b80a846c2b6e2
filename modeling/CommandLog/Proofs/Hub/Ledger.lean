import CommandLog.Hub.Errand

/-! # What operations act on

Of everything that tasks share, an operation reads and changes the store, what is pending on the
devices, and the cursors. Locks, clock and transcript do not matter to it: on resources with the
same ledger it gives the same answer and leaves the same ledger.
-/

namespace CommandLog

/-- The part of what is shared that operations act on. -/
@[ext] structure Ledger where
  store : Store
  pending : List Bytes
  handles : List Handle

namespace Resources

variable {r r' : Resources}

def ledger (r : Resources) : Ledger where
  store := r.store
  pending := r.devices.map Device.pending
  handles := r.handles

@[simp] theorem store_transcribe (r : Resources) (record : Record) :
    (r.transcribe record).store = r.store := by
  unfold transcribe
  split
  · rfl
  · split <;> rfl

@[simp] theorem lock_transcribe (r : Resources) (record : Record) :
    (r.transcribe record).lock = r.lock := by
  unfold transcribe
  split
  · rfl
  · split <;> rfl

@[simp] theorem ledger_transcribe (r : Resources) (record : Record) :
    (r.transcribe record).ledger = r.ledger := by
  unfold transcribe
  split
  · rfl
  · split <;> rfl

@[simp] theorem ledger_request (r : Resources) (id : TaskId) :
    (r.request id).ledger = r.ledger := rfl

@[simp] theorem ledger_release (r : Resources) : r.release.ledger = r.ledger := rfl

@[simp] theorem ledger_withdraw (r : Resources) (id : TaskId) :
    (r.withdraw id).ledger = r.ledger := rfl

theorem ledger_modifyDevice (r : Resources) (d : Nat) {f : Device → Device}
    (hf : ∀ x, (f x).pending = x.pending) : (r.modifyDevice d f).ledger = r.ledger := by
  have hm : (r.devices.modify d f).map Device.pending = r.devices.map Device.pending := by
    refine List.ext_getElem? fun i => ?_
    simp only [List.getElem?_map, List.getElem?_modify]
    split <;> cases r.devices[i]? <;> simp [hf]
  simp [ledger, modifyDevice, hm]

theorem pending_device (r : Resources) (d : Nat) :
    (r.device d).pending = r.ledger.pending.getD d [] := by
  simp only [device, ledger, List.getD_eq_getElem?_getD, List.getElem?_map]
  cases r.devices[d]? <;> rfl

theorem handle_congr (h : r.ledger = r'.ledger) (n : Nat) : r.handle n = r'.handle n :=
  congrArg (fun l => l.handles.getD n ⟨0, 0⟩) h

theorem store_congr (h : r.ledger = r'.ledger) : r.store = r'.store :=
  congrArg Ledger.store h

theorem ledger_setCursor (h : r.ledger = r'.ledger) (n cursor : Nat) :
    (r.setCursor n cursor).ledger = (r'.setCursor n cursor).ledger := by
  have hh : r.handles = r'.handles := congrArg Ledger.handles h
  have hp : r.ledger.pending = r'.ledger.pending := congrArg Ledger.pending h
  have hs : r.store = r'.store := store_congr h
  exact Ledger.ext hs hp (by simp [ledger, setCursor, hh])

theorem ledger_append (h : r.ledger = r'.ledger) (record : Record) :
    (r.append record).1.ledger = (r'.append record).1.ledger := by
  have hp : r.ledger.pending = r'.ledger.pending := congrArg Ledger.pending h
  have hh : r.ledger.handles = r'.ledger.handles := congrArg Ledger.handles h
  exact Ledger.ext (by simp [ledger, append, store_congr h]) hp hh

end Resources

namespace Operation

open Resources

variable {op : Operation} {r r' : Resources}

theorem map_pending_modify (ds : List Device) (d : Nat) (p : Bytes) :
    (ds.modify d fun x => { x with pending := p }).map Device.pending =
      (ds.map Device.pending).set d p := by
  refine List.ext_getElem? fun i => ?_
  simp only [List.getElem?_map, List.getElem?_modify, List.getElem?_set, List.length_map]
  by_cases hi : d = i
  · subst hi
    by_cases hl : d < ds.length <;> simp [hl]
  · simp [hi]

@[simp] theorem lock_act (op : Operation) (r : Resources) : (op.act r).2.lock = r.lock := by
  cases op with
  | seekTo h d => simp only [act]; split <;> rfl
  | seek h target => simp only [act]; split <;> rfl
  | _ => rfl

theorem act_congr (h : r.ledger = r'.ledger) :
    (op.act r).1 = (op.act r').1 ∧ (op.act r).2.ledger = (op.act r').2.ledger := by
  have hs : r.store = r'.store := store_congr h
  cases op with
  | append record | tick record =>
    exact ⟨by simp [act, Resources.append, hs], ledger_append h record⟩
  | snapshot | count | size | hold => exact ⟨by simp [act, hs], h⟩
  | readAt _ offset limit => exact ⟨by simp [act, hs], h⟩
  | read n limit =>
    refine ⟨by simp [act, hs, handle_congr h], ?_⟩
    simpa [act, hs, handle_congr h] using ledger_setCursor h _ _
  | seekTo n d =>
    simp only [act, hs]
    split
    · exact ⟨rfl, ledger_setCursor h _ _⟩
    · exact ⟨rfl, h⟩
  | seek n target =>
    simp only [act, hs, handle_congr h]
    split
    · exact ⟨rfl, ledger_setCursor h _ _⟩
    · exact ⟨rfl, h⟩
  | clear =>
    have hp : r.ledger.pending = r'.ledger.pending := congrArg Ledger.pending h
    have hh : r.ledger.handles = r'.ledger.handles := congrArg Ledger.handles h
    exact ⟨rfl, Ledger.ext (by simp [act, ledger, hs]) hp hh⟩
  | write n data =>
    have hp : r.devices.map Device.pending = r'.devices.map Device.pending :=
      congrArg Ledger.pending h
    have hh : r.handles = r'.handles := congrArg Ledger.handles h
    refine ⟨rfl, ?_⟩
    simp only [act, handle_congr h, pending_device, h, hs]
    apply ledger_setCursor
    apply Ledger.ext
    · rfl
    · simp only [ledger, modifyDevice, map_pending_modify, hp]
    · exact hh

end Operation

end CommandLog
