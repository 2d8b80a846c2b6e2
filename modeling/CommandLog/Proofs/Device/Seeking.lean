import CommandLog.Proofs.Device.Cursor
import CommandLog.Proofs.Store.Addressing

/-! # Seeking

A seek puts the cursor exactly where it is told, if that is a position of the content or its end,
and otherwise leaves it where it was, be that beyond the end; no seek touches the store. An
operation on a handle sees the store and the handle as they were left by the last deed that
concerned either of them.
-/

namespace CommandLog

namespace SeekTarget

variable {target : SeekTarget} {cursor size : Nat}

/-- A target of 64 bits: an unsigned offset, or a signed distance. -/
def IsWord : SeekTarget → Prop
  | start offset => offset < UInt64.size
  | current delta | fromEnd delta =>
    Int64.minValue.toInt ≤ delta ∧ delta ≤ Int64.maxValue.toInt

/-- The position asked for, computed in words of 128 bits. -/
def word (target : SeekTarget) (cursor size : Nat) : BitVec 128 :=
  match target with
  | start offset => BitVec.ofNat 128 offset
  | current delta => BitVec.ofNat 128 cursor + BitVec.ofInt 128 delta
  | fromEnd delta => BitVec.ofNat 128 size + BitVec.ofInt 128 delta

theorem word_eq (target : SeekTarget) (cursor size : Nat) :
    target.word cursor size = BitVec.ofInt 128 (target.position cursor size) := by
  cases target <;> simp [word, position, BitVec.ofInt_add]

theorem position_bounds (ht : target.IsWord) (hc : cursor < UInt64.size)
    (hs : size < UInt64.size) : -(2 * UInt64.size : Int) ≤ target.position cursor size ∧
      target.position cursor size < 2 * UInt64.size := by
  have hmin : -(UInt64.size : Int) ≤ Int64.minValue.toInt := by decide
  have hmax : Int64.maxValue.toInt < UInt64.size := by decide
  cases target <;> simp only [IsWord, position] at ht ⊢ <;> omega

/-- From 64 bits on either side nothing wraps around in 128 bits. -/
theorem toInt_word (ht : target.IsWord) (hc : cursor < UInt64.size) (hs : size < UInt64.size) :
    (target.word cursor size).toInt = target.position cursor size := by
  obtain ⟨hlow, hhigh⟩ := position_bounds ht hc hs
  rw [word_eq]
  refine BitVec.toInt_ofInt_eq_self (by decide) ?_ ?_
  · refine Int.le_trans ?_ hlow
    decide
  · refine Int.lt_of_lt_of_le hhigh ?_
    decide

end SeekTarget

def Deed.Bypasses (n : Nat) (r : Resources) (x : Deed) : Prop :=
  x ≠ .errand .clear ∧ x.records r = [] ∧ x.handle? ≠ some n

instance (n : Nat) (r : Resources) (x : Deed) : Decidable (x.Bypasses n r) :=
  inferInstanceAs (Decidable (_ ∧ _ ∧ _))

theorem Operation.device?_of_handle? {op : Operation} {n : Nat} (hn : op.handle? = some n)
    (hw : ∀ data, op ≠ .write n data) (r : Resources) : op.device? r = none := by
  cases op with
  | write m data =>
    obtain rfl := Option.some.inj hn
    exact absurd rfl (hw data)
  | _ => rfl

theorem Errand.enter_of_handle? {op : Operation} {n : Nat} {stage : Errand.Stage} {id : TaskId}
    {r : Resources} (hn : op.handle? = some n) (hw : ∀ data, op ≠ .write n data) :
    (⟨op, stage⟩ : Errand).enter id r =
      (⟨op, .finished (op.act r).1⟩, (op.act r).2.release) := by
  cases op with
  | write m data =>
    obtain rfl := Option.some.inj hn
    exact absurd rfl (hw data)
  | read | readAt | seekTo | seek => rfl
  | _ => cases hn

theorem Errand.step?_of_holder (e : Errand) {id : TaskId} {r : Resources} {deadline : Option Nat}
    (hs : e.stage = .queued deadline) (hh : r.lock.holder = some id) :
    e.step? id r = some (e.enter id r) ∧ e.deed? id r = some (.errand e.operation) := by
  simp [step?, deed?, hs, hh]

namespace Hub

variable {h h' : Hub} {ev : Event} {evs : List Event} {n : Nat} {op : Operation}
  {result : Except LogError Reply}

theorem run_bypassed (hb : h.Throughout (Deed.Bypasses n) evs) :
    (h.run evs).resources.store = h.resources.store ∧
      (h.run evs).resources.handle n = h.resources.handle n := by
  induction evs using List.reverseRecOn with
  | nil => exact ⟨rfl, rfl⟩
  | append_singleton evs ev ih =>
    obtain ⟨hb, hlast⟩ := throughout_concat.mp hb
    obtain ⟨hstore, hhandle⟩ := ih hb
    rw [run_concat, ← hstore, ← hhandle]
    cases he : (h.run evs).part? ev with
    | none =>
      have hledger := ledger_of_part?_eq_none he
      exact ⟨Resources.store_congr hledger, Resources.handle_congr hledger n⟩
    | some e =>
      have hledger := ledger_of_part? he
      obtain ⟨hclear, hrecords, hne⟩ := hlast e he
      constructor
      · rw [Resources.store_congr hledger, Deed.store_act_of_records_eq_nil hclear hrecords]
      · rw [Resources.handle_congr hledger, Deed.handle_act_of_ne hne]

/-- An operation on a handle has been done, with its result and the hub after it. Until then other
tasks took steps, but nothing that they did concerned the store or the handle. -/
inductive Fulfils (h : Hub) (n : Nat) (op : Operation) :
    Except LogError Reply → Hub → Prop where
  | act {evs : List Event} {ev : Event} {e : Entry} {result : Except LogError Reply} :
      h.Throughout (Deed.Bypasses n) evs → (h.run evs).part? ev = some e →
      e.deed = .errand op → e.answer = .errand result →
      Fulfils h n op result ((h.run evs).next ev)

theorem Fulfils.exists_act (hf : h.Fulfils n op result h') :
    ∃ r : Resources, r.store = h.resources.store ∧ r.handle n = h.resources.handle n ∧
      r.handles.length = h.resources.handles.length ∧ result = (op.act r).1 ∧
      h'.resources.ledger = (op.act r).2.ledger := by
  cases hf with
  | @act evs ev e _ hb he hd ha =>
    obtain ⟨hstore, hhandle⟩ := run_bypassed hb
    have hledger := ledger_of_part? he
    obtain ⟨-, -, -, -, -, -, hanswer⟩ := part?_change he
    rw [hd] at hledger hanswer
    refine ⟨_, hstore, hhandle, length_handles_run h evs, ?_, hledger⟩
    exact Answer.errand.inj (ha.symm.trans hanswer)

theorem next_step_errand {id : TaskId} {e e' : Errand} {r' : Resources}
    (ht : h.tasks[id]? = some (.errand e)) (hs : e.step? id h.resources = some (e', r')) :
    h.next (.step id) = h.put id (.errand e', r') := by
  simp [next, step?, ht, Task.step?, hs]

theorem part?_step_errand {id : TaskId} {e : Errand} (ht : h.tasks[id]? = some (.errand e)) :
    h.part? (.step id) = (e.deed? id h.resources).map (.made id h.resources) := by
  simp [part?, ht, Task.deed?]

/-- A hub whose lock is free carries out what is asked of a handle, other than a write, in two
steps, and its lock is free again. -/
theorem exists_fulfils (hl : h.resources.lock = {}) (op : Operation) (hn : op.handle? = some n)
    (hw : ∀ data, op ≠ .write n data) : ∃ result h', h.Fulfils n op result h' ∧
      h'.tasks[h.tasks.length]? = some (.errand ⟨op, .finished result⟩) ∧
      h'.resources.lock = {} := by
  let id := h.tasks.length
  let asked : Hub := { h with tasks := h.tasks ++ [.errand { operation := op }] }
  let r := h.resources.request id
  let e : Errand := ⟨op, .queued (op.deadline? h.resources)⟩
  let queued : Hub := asked.put id (.errand e, r)
  have hasked : asked.tasks[id]? = some (.errand { operation := op }) := by simp [asked, id]
  have hqueued : queued.tasks[id]? = some (.errand e) := by simp [queued, asked, put, id]
  have hholder : r.lock.holder = some id := by
    simp [r, Resources.request, FairLock.request, hl]
  have hask : asked.next (.step id) = queued :=
    next_step_errand hasked (by simp [Errand.step?, op.device?_of_handle? hn hw, asked, e, r])
  have hact : queued.next (.step id) =
      queued.put id (.errand ⟨op, .finished (op.act r).1⟩, (op.act r).2.release) := by
    refine next_step_errand hqueued ((e.step?_of_holder rfl hholder).1.trans ?_)
    rw [Errand.enter_of_handle? hn hw]
  have hdeed : queued.part? (.step id) = some (.made id r (.errand op)) := by
    rw [part?_step_errand hqueued]
    exact congrArg (Option.map _) (e.step?_of_holder rfl hholder).2
  have hquiet : h.Throughout (Deed.Bypasses n)
      [.spawn (.errand { operation := op }), .step id] := by
    have hnone : asked.part? (.step id) = none := part?_step_errand hasked
    refine ⟨fun e he => absurd he (Option.not_mem_none e), fun e he => ?_, trivial⟩
    exact absurd (hnone ▸ he) (Option.not_mem_none e)
  refine ⟨(op.act r).1, queued.next (.step id), ?_, ?_, ?_⟩
  · rw [← hask] at hdeed ⊢
    exact .act hquiet hdeed rfl rfl
  · rw [hact]
    simp [queued, asked, put, id]
  · rw [hact]
    simp [put, r, Resources.release, FairLock.release, Resources.request, FairLock.request, hl]

theorem Fulfils.read {limit : Nat} (hf : h.Fulfils n (.read n limit) result h')
    (hs : h.resources.store.Sound) :
    h'.resources.store = h.resources.store ∧ result = .ok (.bytes
      ((h.resources.store.content.drop (h.resources.handle n).cursor).take limit)) := by
  obtain ⟨r, hstore, hhandle, -, rfl, hledger⟩ := hf.exists_act
  refine ⟨(Resources.store_congr hledger).trans hstore, ?_⟩
  simp only [Operation.act, hstore, hhandle, hs.readAt]

theorem Fulfils.moved {k : Nat} (hf : h.Fulfils n op result h')
    (hn : n < h.resources.handles.length)
    (ha : ∀ r : Resources, r.store = h.resources.store → r.handle n = h.resources.handle n →
      op.act r = (.ok (.number k), r.setCursor n k)) :
    h'.resources.store = h.resources.store ∧ result = .ok (.number k) ∧
      h'.resources.handle n = { h.resources.handle n with cursor := k } := by
  obtain ⟨r, hstore, hhandle, hlength, rfl, hledger⟩ := hf.exists_act
  rw [ha r hstore hhandle] at hledger ⊢
  refine ⟨(Resources.store_congr hledger).trans hstore, rfl, ?_⟩
  rw [Resources.handle_congr hledger, Resources.handle_setCursor_self (hlength ▸ hn), hhandle]

theorem Fulfils.failed (hf : h.Fulfils n op result h') (cause : LogError)
    (ha : ∀ r : Resources, r.store = h.resources.store → r.handle n = h.resources.handle n →
      op.act r = (.error cause, r)) :
    h'.resources.store = h.resources.store ∧ result = .error cause ∧
      h'.resources.handle n = h.resources.handle n := by
  obtain ⟨r, hstore, hhandle, -, rfl, hledger⟩ := hf.exists_act
  rw [ha r hstore hhandle] at hledger ⊢
  exact ⟨(Resources.store_congr hledger).trans hstore, rfl,
    (Resources.handle_congr hledger n).trans hhandle⟩

structure Sought (h : Hub) (n : Nat) (target : SeekTarget) (result : Except LogError Reply)
    (h' : Hub) : Prop where
  store : h'.resources.store = h.resources.store
  inside : let size := h.resources.store.size
    let position := target.position (h.resources.handle n).cursor size
    0 ≤ position ∧ position ≤ size →
    ∃ k : Nat, (k : Int) = position ∧ result = .ok (.number k) ∧
      h'.resources.handle n = { h.resources.handle n with cursor := k }
  outside : let size := h.resources.store.size
    let position := target.position (h.resources.handle n).cursor size
    ¬ (0 ≤ position ∧ position ≤ size) →
    result = .error (.invalidSeek (.outside position size)) ∧
      h'.resources.handle n = h.resources.handle n
  /-- The position is the same in words of 128 bits. -/
  exact : target.IsWord → (h.resources.handle n).cursor < UInt64.size →
    h.resources.store.size < UInt64.size →
    (target.word (h.resources.handle n).cursor h.resources.store.size).toInt =
      target.position (h.resources.handle n).cursor h.resources.store.size

theorem Fulfils.sought {target : SeekTarget} (hf : h.Fulfils n (.seek n target) result h')
    (hn : n < h.resources.handles.length) : h.Sought n target result h' := by
  let size := h.resources.store.size
  let position := target.position (h.resources.handle n).cursor size
  by_cases hp : 0 ≤ position ∧ position ≤ size
  case pos =>
    obtain ⟨hstore, hresult, hhandle⟩ := hf.moved (k := position.toNat) hn fun r hs hh => by
      simp only [Operation.act, Store.seek, hs, hh]
      rw [if_pos hp]
    exact ⟨hstore, fun _ => ⟨_, Int.toNat_of_nonneg hp.1, hresult, hhandle⟩, (absurd hp ·),
      SeekTarget.toInt_word⟩
  case neg =>
    obtain ⟨hstore, hresult, hhandle⟩ :=
      hf.failed (.invalidSeek (.outside position size)) fun r hs hh => by
        simp only [Operation.act, Store.seek, hs, hh]
        rw [if_neg hp]
    exact ⟨hstore, (absurd · hp), fun _ => ⟨hresult, hhandle⟩, SeekTarget.toInt_word⟩

structure Directed (h : Hub) (n : Nat) (d : Directive) (result : Except LogError Reply)
    (h' : Hub) : Prop where
  store : h'.resources.store = h.resources.store
  inside : h.resources.store.Contains ⟨d.index.toNat, d.offset.toNat⟩ →
    let before := h.resources.store.toList.take d.index.toNat
    let after := h.resources.store.toList.drop (d.index.toNat + 1)
    let offset := Record.totalLength before + d.offset.toNat
    ∃ r, h.resources.store.get? d.index.toNat = some r ∧ result = .ok (.number offset) ∧
      h'.resources.handle n = { h.resources.handle n with cursor := offset } ∧
      ∀ limit result' h'', h'.Fulfils n (.read n limit) result' h'' → result' = .ok (.bytes
        ((r.bytes.drop d.offset.toNat ++ (after.map Record.bytes).flatten).take limit))
  outside : ¬ h.resources.store.Contains ⟨d.index.toNat, d.offset.toNat⟩ →
    result = .error (.outOfRange d.index.toNat d.offset.toNat) ∧
      h'.resources.handle n = h.resources.handle n

theorem Fulfils.directed {d : Directive} (hf : h.Fulfils n (.seekTo n d) result h')
    (hs : h.resources.store.Sound) (hn : n < h.resources.handles.length) :
    h.Directed n d result h' := by
  obtain ⟨rs, hrs⟩ := hs
  by_cases hc : h.resources.store.Contains ⟨d.index.toNat, d.offset.toNat⟩
  case pos =>
    obtain ⟨r, hget, -⟩ := hc.2
    let k := Record.totalLength (rs.take d.index.toNat) + d.offset.toNat
    have hlocate : h.resources.store.locate d = .ok k := hrs.resolve_eq_ok_iff.mpr ⟨hc, rfl⟩
    obtain ⟨hstore, hresult, hhandle⟩ := hf.moved (k := k) hn fun r hs hh => by
      simp only [Operation.act, hs, hlocate]
    refine ⟨hstore, fun _ => ⟨r, hget, ?_, ?_, fun limit result' h'' hread => ?_⟩, (absurd hc ·)⟩
    · rwa [hrs.toList]
    · rwa [hrs.toList]
    · rw [(hread.read (hstore ▸ ⟨rs, hrs⟩)).2, hstore, hhandle, hrs.drop_content hlocate hget]
      rfl
  case neg =>
    have hlocate : h.resources.store.locate d =
        .error (.outOfRange d.index.toNat d.offset.toNat) := hrs.resolve_of_not_contains hc
    obtain ⟨hstore, hresult, hhandle⟩ :=
      hf.failed (.outOfRange d.index.toNat d.offset.toNat) fun r hs hh => by
        simp only [Operation.act, hs, hlocate]
    exact ⟨hstore, (absurd · hc), fun _ => ⟨hresult, hhandle⟩⟩

/-- Seeks through a handle, wherever its cursor is: they go exactly where they are told within the
content and its end, or fail and change nothing, and none of them is kept waiting by a free lock. -/
theorem seeks_land (hs : h.resources.store.Sound) (hn : n < h.resources.handles.length) :
    (∀ target result h', h.Fulfils n (.seek n target) result h' →
      h.Sought n target result h') ∧
    (∀ d result h', h.Fulfils n (.seekTo n d) result h' → h.Directed n d result h') ∧
    (h.resources.lock = {} → ∀ op, op.handle? = some n → (∀ data, op ≠ .write n data) →
      ∃ result h', h.Fulfils n op result h' ∧
        h'.tasks[h.tasks.length]? = some (.errand ⟨op, .finished result⟩) ∧
        h'.resources.lock = {}) :=
  ⟨fun _ _ _ hf => hf.sought hn, fun _ _ _ hf => hf.directed hs hn,
    fun hl op hop hw => exists_fulfils hl op hop hw⟩

def noted : Hub :=
  desk.run [.spawn (.errand ⟨.append ⟨[97, 98, 10]⟩, .fresh⟩), .step 0, .step 0]

/-- A cursor far beyond the end does not move half the way back, but to a byte of the line. -/
theorem noted_seeks :
    noted.resources.store.Sound ∧ 1 < noted.resources.handles.length ∧
      (∃ h', noted.Fulfils 1 (.seek 1 (.current Int64.minValue.toInt))
          (.error (.invalidSeek (.outside 9223372036854775807 3))) h' ∧
        h'.resources.handle 1 = ⟨0, 18446744073709551615⟩) ∧
      ∃ h', noted.Fulfils 1 (.seekTo 1 ⟨0, 1⟩) (.ok (.number 1)) h' ∧
        h'.resources.handle 1 = ⟨0, 1⟩ := by
  have hs : noted.resources.store.Sound := sound_run desk_sound _
  have hn : 1 < noted.resources.handles.length := by decide
  obtain ⟨hseek, hseekTo, hprompt⟩ := seeks_land hs hn
  refine ⟨hs, hn, ?_, ?_⟩
  · obtain ⟨result, h', hf, -⟩ :=
      hprompt (by decide) (.seek 1 (.current Int64.minValue.toInt)) rfl nofun
    obtain ⟨rfl, hhandle⟩ := (hseek _ result h' hf).outside (by decide)
    exact ⟨h', hf, hhandle⟩
  · obtain ⟨result, h', hf, -⟩ := hprompt (by decide) (.seekTo 1 ⟨0, 1⟩) rfl nofun
    obtain ⟨r, -, rfl, hhandle, -⟩ := (hseekTo _ result h' hf).inside (by decide)
    exact ⟨h', hf, hhandle⟩

end Hub

end CommandLog
