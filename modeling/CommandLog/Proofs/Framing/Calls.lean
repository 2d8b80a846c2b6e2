import Mathlib.Algebra.GroupWithZero.Nat
import CommandLog.Proofs.Framing.Frames

/-! # Calls one after the other

However a call ends, the bytes that it took off the stream are in its frame or in the buffer, after
those that were there before. A read that fails therefore costs nothing: the next call goes on with
the very read that failed, so that without the failures the calls come to the same.
-/

namespace CommandLog

def Arrival.isFailure : Arrival → Bool
  | failure _ => true
  | _ => false

namespace Wire

/-- The wire with the reads that fail taken out of its script. -/
def mended (w : Wire) : Wire :=
  { w with arrivals := w.arrivals.filter (!·.isFailure) }

def failures (w : Wire) : Nat :=
  w.arrivals.countP Arrival.isFailure

/-- What becomes of a read once the failures are taken out. -/
inductive Mended (w : Wire) (room : Nat) : Reading × Wire → Prop where
  | failure {cause : IoError} {w' : Wire} : w'.mended = w.mended → w.failures = w'.failures + 1 →
      Mended w room (.failure cause, w')
  | same {res : Reading} {w' : Wire} : (∀ cause, res ≠ .failure cause) →
      w.mended.read room = (res, w'.mended) → w.failures = w'.failures → Mended w room (res, w')

theorem read_mended (w : Wire) (room : Nat) : w.Mended room (w.read room) := by
  cases ha : w.arrivals with
  | nil =>
    have hr : w.read room = (if w.ends then .bytes [] else .wait, w) := by simp [read, ha]
    rw [hr]
    refine .same (fun cause h => by split at h <;> cases h) ?_ rfl
    simp [mended, read, ha]
  | cons arrival rest =>
    cases arrival with
    | failure cause =>
      have hr : w.read room = (.failure cause, { w with arrivals := rest }) := by simp [read, ha]
      rw [hr]
      refine .failure ?_ ?_
      · simp [mended, ha, Arrival.isFailure]
      · simp [failures, ha, List.countP_cons, Arrival.isFailure]
    | pause =>
      have hr : w.read room = (.pause, { w with arrivals := rest }) := by simp [read, ha]
      rw [hr]
      refine .same (fun _ h => by cases h) ?_ ?_
      · simp [mended, read, ha, Arrival.isFailure]
      · simp [failures, ha, Arrival.isFailure]
    | chunk bs =>
      by_cases hl : bs.length ≤ room
      · have hr : w.read room = (.bytes bs, { w with arrivals := rest }) := by simp [read, ha, hl]
        rw [hr]
        refine .same (fun _ h => by cases h) ?_ ?_
        · simp [mended, read, ha, hl, Arrival.isFailure]
        · simp [failures, ha, Arrival.isFailure]
      · have hr : w.read room =
            (.bytes (bs.take room), { w with arrivals := .chunk (bs.drop room) :: rest }) := by
          simp [read, ha, hl]
        rw [hr]
        refine .same (fun _ h => by cases h) ?_ ?_
        · simp [mended, read, ha, hl, Arrival.isFailure]
        · simp [failures, ha, Arrival.isFailure]

end Wire

namespace LineReader

variable {r next : LineReader} {w w' : Wire} {x : Reading} {room n : Nat}

def Reading.isBroken (x : Reading) : Bool :=
  match x.result with
  | some (.error (.io _)) => true
  | _ => false

theorem Reads.awaited (h : Reads r w x) :
    ∃ got : Bytes, got.length = x.reads.sum ∧ got ++ x.wire.awaited = w.awaited := by
  induction h with
  | frame | failure => exact ⟨[], rfl, rfl⟩
  | @ended _ _ w _ room _ hr | @broken _ _ w _ room _ _ hr | @wait _ _ w _ room _ hr =>
    have hg := w.read_awaited room
    rw [hr] at hg
    exact ⟨[], rfl, hg⟩
  | @bytes _ _ w _ room bs x _ hr _ _ ih =>
    obtain ⟨got, hlen, hgot⟩ := ih
    have hg := w.read_awaited room
    rw [hr] at hg
    refine ⟨bs ++ got, by simp [hlen], ?_⟩
    rw [List.append_assoc, hgot]
    exact hg
  | @pause _ _ w _ room _ _ hr _ ih =>
    have hg := w.read_awaited room
    rw [hr] at hg
    exact hg ▸ ih

theorem Reads.taken (h : Reads r w x) :
    ∃ got : Bytes, got.length = x.reads.sum ∧ got ++ x.wire.awaited = w.awaited ∧
      x.given ++ x.reader.buffer = r.buffer ++ got := by
  obtain ⟨got, hlen, hgot⟩ := h.awaited
  have hall := h.given
  rw [← hgot, ← List.append_assoc] at hall
  exact ⟨got, hlen, hgot, List.append_cancel_right hall⟩

theorem Reads.eq_readWithin (h : Reads r w x) (hn : w.ahead < n) : readWithin n r w = x := by
  induction h generalizing n with
  | frame hp | failure hp =>
    obtain ⟨n, rfl⟩ := Nat.exists_eq_succ_of_ne_zero (Nat.ne_zero_of_lt hn)
    rw [readWithin, hp]
  | ended hp hr | broken hp hr | wait hp hr =>
    obtain ⟨n, rfl⟩ := Nat.exists_eq_succ_of_ne_zero (Nat.ne_zero_of_lt hn)
    rw [readWithin, hp]
    dsimp only
    rw [hr]
  | @bytes _ _ _ _ _ bs _ hp hr hne _ ih =>
    obtain ⟨n, rfl⟩ := Nat.exists_eq_succ_of_ne_zero (Nat.ne_zero_of_lt hn)
    have hlt := Wire.ahead_lt_of_bytes hr hne
    obtain ⟨b, bs, rfl⟩ := List.exists_cons_of_ne_nil hne
    rw [readWithin, hp]
    dsimp only
    rw [hr]
    dsimp only
    rw [ih (by omega)]
  | pause hp hr _ ih =>
    obtain ⟨n, rfl⟩ := Nat.exists_eq_succ_of_ne_zero (Nat.ne_zero_of_lt hn)
    have hlt := Wire.ahead_lt_of_pause hr
    rw [readWithin, hp]
    dsimp only
    rw [hr]
    exact ih (by omega)

theorem Reads.eq_readRecord (h : Reads r w x) : r.readRecord w = x :=
  h.eq_readWithin (ahead_lt_fuel w)

theorem poll_of_lt (hn : newline ∉ r.buffer) (hl : r.excess? (r.buffered + 1) = none)
    (hc : r.buffered < r.capacity) : r.poll = .bytes (r.capacity - r.buffered) r := by
  rw [poll, Bytes.firstLine?_eq_none_iff.mpr hn]
  dsimp only
  rw [hl]
  dsimp only
  rw [if_neg hc.ne]

/-- A reader that has made room asks for the same bytes again. -/
theorem poll_of_poll_bytes (hr : r.Sound) (h : r.poll = .bytes room next) :
    next.poll = .bytes room next := by
  cases h ▸ r.polled with
  | bytes hn hl hc => exact poll_of_lt hn hl (hc hr)

/-- A call whose read failed can be made again as if it had not been made. -/
theorem readRecord_of_poll_bytes (hr : r.Sound) (h : r.poll = .bytes room next) (w : Wire) :
    next.readRecord w = r.readRecord w := by
  rw [readRecord, readRecord, readWithin, readWithin, poll_of_poll_bytes hr h, h]

theorem readRecord_bytes {bs : Bytes} (hp : r.poll = .bytes room next)
    (hr : w.read room = (.bytes bs, w')) (hne : bs ≠ []) :
    r.readRecord w = { (next.take bs).readRecord w' with
      reads := bs.length :: ((next.take bs).readRecord w').reads } :=
  (Reads.bytes hp hr hne (readRecord_reads _ _)).eq_readRecord

theorem readRecord_pause (hp : r.poll = .bytes room next) (hr : w.read room = (.pause, w')) :
    r.readRecord w = next.readRecord w' :=
  (Reads.pause hp hr (readRecord_reads _ _)).eq_readRecord

theorem exists_of_poll_failure {cause : LogError} (h : r.poll = .failure cause) :
    ∃ c, cause = .exhausted c := by
  cases h ▸ r.polled with
  | overlong _ hl | overfull _ hl =>
    obtain ⟨_, -, -, rfl⟩ := exists_of_excess? hl
    exact ⟨_, rfl⟩
  | unaffordable => exact ⟨_, rfl⟩

/-- A call goes the same way without the failures of the stream, except that it goes on where it
broke off before. -/
theorem Reads.mended (h : Reads r w x) (hr : r.Sound) :
    r.readRecord w.mended =
      if x.isBroken then
        { x.reader.readRecord x.wire.mended with
          reads := x.reads ++ (x.reader.readRecord x.wire.mended).reads }
      else { x with wire := x.wire.mended } := by
  -- on the steps of the call; where a read fails, the mended wire goes on with the one after it
  induction h with
  | frame hp => exact (Reads.frame hp).eq_readRecord
  | @failure r w _ hp =>
    have hcall : r.readRecord w.mended = _ := (Reads.failure hp).eq_readRecord
    obtain ⟨_, rfl⟩ := exists_of_poll_failure hp
    exact hcall
  | @ended _ _ w _ room hp hread =>
    cases hread ▸ w.read_mended room with
    | same _ hm => exact (Reads.ended hp hm).eq_readRecord
  | @bytes r _ w _ room bs x hp hread hne _ ih =>
    cases hread ▸ w.read_mended room with
    | same _ hm =>
      rw [readRecord_bytes hp hm hne, ih (hr.take hp hread)]
      cases hx : x.isBroken with
      | true =>
        have hx' : Reading.isBroken { x with reads := bs.length :: x.reads } = true := hx
        rw [hx', if_pos rfl, if_pos rfl]
        rfl
      | false =>
        have hx' : Reading.isBroken { x with reads := bs.length :: x.reads } = false := hx
        rw [hx']
        rfl
  | @broken r _ w _ room _ hp hread =>
    cases hread ▸ w.read_mended room with
    | failure hm =>
      rw [← hm]
      exact (readRecord_of_poll_bytes hr hp _).symm
    | same hne => exact absurd rfl (hne _)
  | @pause _ _ w _ room _ hp hread _ ih =>
    cases hread ▸ w.read_mended room with
    | same _ hm =>
      rw [readRecord_pause hp hm]
      exact ih ((of_poll_bytes hp).2.2.2 hr).1
  | @wait _ _ w _ room hp hread =>
    cases hread ▸ w.read_mended room with
    | same _ hm => exact (Reads.wait hp hm).eq_readRecord

theorem Reads.failures (h : Reads r w x) :
    w.failures = x.wire.failures + if x.isBroken then 1 else 0 := by
  induction h with
  | frame => rfl
  | failure hp =>
    obtain ⟨_, rfl⟩ := exists_of_poll_failure hp
    rfl
  | @ended _ _ w _ room _ hread | @wait _ _ w _ room _ hread =>
    cases hread ▸ w.read_mended room with
    | same _ _ hf => exact hf
  | @bytes _ _ w _ room _ _ _ hread _ _ ih | @pause _ _ w _ room _ _ hread _ ih =>
    cases hread ▸ w.read_mended room with
    | same _ _ hf => exact hf.trans ih
  | @broken _ _ w _ room _ _ hread =>
    cases hread ▸ w.read_mended room with
    | failure _ hf => exact hf
    | same hne => exact absurd rfl (hne _)

def calls : Nat → LineReader → Wire → List Reading
  | 0, _, _ => []
  | n + 1, r, w => r.readRecord w :: calls n (r.readRecord w).reader (r.readRecord w).wire

def behind : Nat → LineReader → Wire → LineReader × Wire
  | 0, r, w => (r, w)
  | n + 1, r, w => behind n (r.readRecord w).reader (r.readRecord w).wire

theorem length_calls (n : Nat) (r : LineReader) (w : Wire) : (calls n r w).length = n := by
  induction n generalizing r w with
  | zero => rfl
  | succ n ih => rw [calls, List.length_cons, ih]

theorem calls_taken (n : Nat) (r : LineReader) (w : Wire) :
    ∃ got : Bytes, got.length = ((calls n r w).flatMap Reading.reads).sum ∧
      got ++ (behind n r w).2.awaited = w.awaited ∧
      (calls n r w).flatMap Reading.given ++ (behind n r w).1.buffer = r.buffer ++ got := by
  induction n generalizing r w with
  | zero => exact ⟨[], rfl, rfl, by simp [calls, behind]⟩
  | succ n ih =>
    obtain ⟨got, hlen, hgot, hbuffer⟩ := (readRecord_reads r w).taken
    obtain ⟨got', hlen', hgot', hbuffer'⟩ := ih (r.readRecord w).reader (r.readRecord w).wire
    refine ⟨got ++ got', ?_, ?_, ?_⟩
    · simp [calls, hlen, hlen']
    · rw [behind, List.append_assoc, hgot', hgot]
    · rw [calls, behind, List.flatMap_cons, List.append_assoc, hbuffer', ← List.append_assoc,
        hbuffer, List.append_assoc]

theorem calls_mended (hr : r.Sound) (n : Nat) (w : Wire) :
    ((calls n r w).filter (!·.isBroken)).map Reading.result =
        readRecords (n - (calls n r w).countP Reading.isBroken) r w.mended ∧
      (calls n r w).countP Reading.isBroken ≤ w.failures := by
  -- on the calls: one that breaks off is made again by the next, and is not counted
  induction n generalizing r w with
  | zero => exact ⟨rfl, Nat.zero_le _⟩
  | succ n ih =>
    have hreads := readRecord_reads r w
    have hcall := hreads.mended hr
    have hfailures := hreads.failures
    have hle := (calls n (r.readRecord w).reader (r.readRecord w).wire).countP_le_length
      (p := Reading.isBroken)
    rw [length_calls] at hle
    rw [calls]
    generalize r.readRecord w = x at hreads hcall hfailures hle ⊢
    obtain ⟨hres, hcount⟩ := ih (hreads.keeps.2.2 hr) x.wire
    cases hx : x.isBroken with
    | true =>
      rw [hx, if_pos rfl] at hcall hfailures
      rw [List.filter_cons_of_neg (by simp [hx]), List.countP_cons_of_pos hx,
        Nat.add_sub_add_right, hres]
      refine ⟨?_, by omega⟩
      cases n - (calls n x.reader x.wire).countP Reading.isBroken with
      | zero => rfl
      | succ m => rw [readRecords, readRecords, hcall]
    | false =>
      rw [hx] at hcall hfailures
      rw [List.filter_cons_of_pos (by simp [hx]), List.countP_cons_of_neg (by simp [hx]),
        Nat.sub_add_comm hle, readRecords, hcall, List.map_cons, hres]
      exact ⟨rfl, hfailures ▸ hcount⟩

/-- After any number of calls the frames returned and the buffer are the bytes that the reads have
taken off the stream, whatever the stream does. Calls made again whenever a read failed return what
calls return on the stream without the failures, at the cost of one call for each failure. -/
theorem calls_lose_nothing (initial : Nat) (limit : Option Nat) (w : Wire) (n : Nat) :
    let r := ofInitial initial limit
    let xs := calls n r w
    let taken := (xs.flatMap Reading.reads).sum
    (xs.flatMap Reading.given ++ (behind n r w).1.buffer = w.awaited.take taken ∧
        (xs.flatMap Reading.given).length + (behind n r w).1.buffered = taken ∧
        (behind n r w).2.awaited = w.awaited.drop taken) ∧
      (xs.filter (!·.isBroken)).map Reading.result =
        readRecords (n - xs.countP Reading.isBroken) r w.mended ∧
      xs.countP Reading.isBroken ≤ w.failures := by
  intro r xs taken
  obtain ⟨got, hlen, hgot, hbuffer⟩ : ∃ got : Bytes, got.length = taken ∧ _ ∧ _ :=
    calls_taken n r w
  have hall : xs.flatMap Reading.given ++ (behind n r w).1.buffer = got := hbuffer
  refine ⟨⟨?_, ?_, ?_⟩, calls_mended (ofInitial_sound initial limit) n w⟩
  · rw [hall, ← hgot, ← hlen, List.take_left]
  · rw [buffered, ← List.length_append, hall, hlen]
  · rw [← hgot, ← hlen, List.drop_left]

end LineReader

end CommandLog
