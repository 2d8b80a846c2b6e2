import CommandLog.Proofs.Hub.Deed

/-! # What is assembled on a device

A write cuts what is pending on its device, together with its own data, into lines: these become
records, and the rest is pending. It moves the cursor of its own handle past its data. Nothing else
that is done to the log changes what is pending, and no handle ever changes its device.
-/

namespace CommandLog

theorem Device.assemble_eq {pending : Bytes} (h : newline ∉ pending) (data : Bytes) :
    Device.assemble pending data =
      ((pending ++ data).lines.map Record.mk, (pending ++ data).unfinished) := by
  obtain ⟨ls, rest, hl, hr, rfl⟩ := data.exists_lines
  rw [assemble, Bytes.splitLines_flatten_append hl hr, Bytes.lines, Bytes.unfinished]
  cases ls with
  | nil =>
    have hn : newline ∉ pending ++ rest := by simp [h, hr]
    rw [List.flatten_nil, List.nil_append, Bytes.splitLines_of_not_mem hn]
    rfl
  | cons l ls =>
    obtain ⟨hl, hls⟩ := List.forall_mem_cons.mp hl
    obtain ⟨body, hn, rfl⟩ := hl
    have hline : (pending ++ (body ++ [newline])).IsLine :=
      ⟨pending ++ body, by simp [h, hn], by rw [List.append_assoc]⟩
    rw [List.flatten_cons, List.append_assoc, ← List.append_assoc pending, ← List.append_assoc,
      ← List.flatten_cons,
      Bytes.splitLines_flatten_append (List.forall_mem_cons.mpr ⟨hline, hls⟩) hr]
    rfl

namespace Resources

variable {r r' : Resources} {d n : Nat}

def owner (r : Resources) (n : Nat) : Nat :=
  (r.handle n).device

theorem owner_congr (h : r.ledger = r'.ledger) : r.owner = r'.owner :=
  funext fun n => congrArg Handle.device (handle_congr h n)

theorem owner_setCursor (r : Resources) (n cursor : Nat) :
    (r.setCursor n cursor).owner = r.owner := by
  funext i
  simp only [owner, handle, setCursor, List.getD_eq_getElem?_getD, List.getElem?_modify]
  split <;> cases r.handles[i]? <;> rfl

theorem handles_setCursor_add (r : Resources) (n length : Nat) :
    (r.setCursor n ((r.handle n).cursor + length)).handles =
      r.handles.modify n fun x => { x with cursor := x.cursor + length } := by
  refine List.ext_getElem? fun i => ?_
  simp only [setCursor, handle, List.getD_eq_getElem?_getD, List.getElem?_modify]
  split
  case isTrue he =>
    subst he
    cases r.handles[n]? <;> rfl
  case isFalse => rfl

theorem length_devices_congr (h : r.ledger = r'.ledger) :
    r.devices.length = r'.devices.length := by
  have hp : r.ledger.pending.length = r'.ledger.pending.length := congrArg (·.pending.length) h
  simpa [ledger] using hp

theorem device_modifyDevice (hd : d < r.devices.length) (n : Nat) (f : Device → Device) :
    (r.modifyDevice n f).device d = if n = d then f (r.device d) else r.device d := by
  simp only [device, modifyDevice, List.getD_eq_getElem?_getD, List.getElem?_modify,
    List.getElem?_eq_getElem hd]
  split <;> rfl

end Resources

def Operation.writes? (op : Operation) (d : Nat) (r : Resources) : Option Bytes :=
  match op with
  | .write n data => if r.owner n = d then some data else none
  | _ => none

def Deed.writes? (x : Deed) (d : Nat) (r : Resources) : Option Bytes :=
  match x with
  | exchange _ => none
  | errand op => op.writes? d r

namespace Operation

open Resources

variable {op : Operation} {r : Resources} {d : Nat} {data : Bytes}

theorem writes?_eq_some_iff :
    op.writes? d r = some data ↔ ∃ n, op = .write n data ∧ r.owner n = d := by
  cases op with
  | write n data' =>
    simp only [writes?, write.injEq]
    split
    case isTrue he => simp [he, eq_comm]
    case isFalse he =>
      refine ⟨nofun, ?_⟩
      rintro ⟨_, ⟨rfl, -⟩, ho⟩
      exact absurd ho he
  | _ => simp [writes?]

theorem owner_act (op : Operation) (r : Resources) : (op.act r).2.owner = r.owner := by
  cases op with
  | write n data => exact owner_setCursor ..
  | read n limit => exact owner_setCursor ..
  | seekTo n directive =>
    simp only [act]
    split
    · exact owner_setCursor ..
    · rfl
  | seek n target =>
    simp only [act]
    split
    · exact owner_setCursor ..
    · rfl
  | _ => rfl

theorem devices_act (op : Operation) (r : Resources) : (op.act r).2.devices =
    match op with
    | .write n data => r.devices.modify (r.owner n) fun x =>
        { x with pending := (Device.assemble (r.device (r.owner n)).pending data).2 }
    | _ => r.devices := by
  cases op with
  | seekTo n directive => simp only [act]; split <;> rfl
  | seek n target => simp only [act]; split <;> rfl
  | _ => rfl

theorem length_devices_act (op : Operation) (r : Resources) :
    (op.act r).2.devices.length = r.devices.length := by
  rw [devices_act]
  split
  · exact List.length_modify ..
  · rfl

/-- An operation changes what is pending on a device by what it writes, and never its lock. -/
theorem device_act (hd : d < r.devices.length) (op : Operation) : (op.act r).2.device d =
    match op.writes? d r with
    | some data =>
      { r.device d with pending := (Device.assemble (r.device d).pending data).2 }
    | none => r.device d := by
  have hdevice : (op.act r).2.device d = (op.act r).2.devices.getD d {} := rfl
  rw [hdevice, devices_act]
  cases op with
  | write n data =>
    simp only [writes?]
    refine (device_modifyDevice hd _ _).trans ?_
    split
    case isTrue he => rw [he]
    case isFalse => rfl
  | _ => rfl

end Operation

namespace Deed

open Resources

variable {x : Deed} {r : Resources} {d : Nat} {data : Bytes}

theorem writes?_eq_some_iff :
    x.writes? d r = some data ↔ ∃ n, x = .errand (.write n data) ∧ r.owner n = d := by
  cases x with
  | exchange => simp [writes?]
  | errand op => simp [writes?, Operation.writes?_eq_some_iff]

theorem exchange_act (request : Option Command) (r : Resources) :
    ((exchange request).act r).2.devices = r.devices ∧
      ((exchange request).act r).2.handles = r.handles := by
  rcases request with _ | _ | _
  · exact ⟨rfl, rfl⟩
  · simp only [act, Session.exchange]
    split <;> exact ⟨rfl, rfl⟩
  · exact ⟨rfl, rfl⟩

theorem owner_act (x : Deed) (r : Resources) : (x.act r).2.owner = r.owner := by
  cases x with
  | exchange request =>
    funext n
    simp only [owner, handle, (exchange_act request r).2]
  | errand op => exact op.owner_act r

theorem length_devices_act (x : Deed) (r : Resources) :
    (x.act r).2.devices.length = r.devices.length := by
  cases x with
  | exchange request => rw [(exchange_act request r).1]
  | errand op => exact op.length_devices_act r

theorem pending_act (hd : d < r.devices.length) (x : Deed) : ((x.act r).2.device d).pending =
    match x.writes? d r with
    | some data => (Device.assemble (r.device d).pending data).2
    | none => (r.device d).pending := by
  cases x with
  | exchange request => simp only [writes?, device, (exchange_act request r).1]
  | errand op =>
    simp only [writes?, act, op.device_act hd]
    split <;> rfl

/-- A write leaves pending what it has begun of a line, and never a whole one. -/
theorem newline_not_mem_pending (h : ∀ d, newline ∉ (r.device d).pending) (x : Deed) (d : Nat) :
    newline ∉ ((x.act r).2.device d).pending := by
  rcases Nat.lt_or_ge d r.devices.length with hlt | hge
  · rw [x.pending_act hlt]
    cases x.writes? d r with
    | none => exact h d
    | some data =>
      dsimp only
      rw [Device.assemble_eq (h d)]
      exact Bytes.newline_not_mem_unfinished _
  · have hlength := x.length_devices_act r
    rw [device, List.getD_eq_getElem?_getD, List.getElem?_eq_none (hlength ▸ hge)]
    exact List.not_mem_nil

/-- A write says how much it took, installs the lines that it completes and moves its cursor. -/
theorem act_write (n : Nat) (data : Bytes) (r : Resources) :
    let x : Deed := .errand (.write n data)
    (x.act r).1 = .errand (.ok (.number data.length)) ∧
      x.records r = (Device.assemble (r.device (r.owner n)).pending data).1 ∧
      (x.act r).2.handles =
        r.handles.modify n fun x => { x with cursor := x.cursor + data.length } :=
  ⟨rfl, rfl, handles_setCursor_add r n data.length⟩

end Deed

end CommandLog
