import Mathlib.Data.Nat.Find
import CommandLog.Proofs.Framing.Calls

/-! # The limit of a record

Under a limit the frames of a stream come one after the other up to the first whose record is too
long; that call fails, and so does every later one, without another read. Which call it is depends
on the bytes of the stream alone, although the failure is noticed at the newline or before it, as
the pieces of the stream will have it.
-/

namespace CommandLog

/-- The length of the record in a frame, or the least that it can come to: an unfinished record
still lacks its newline. -/
def Frame.recordLength (f : Frame) : Nat :=
  f.bytes.length + if f.complete then 0 else 1

namespace Bytes

theorem recordLength_frame_zero (s : Bytes) :
    (s.frame 0).recordLength = (opening s).length + 1 := by
  cases h : s.firstLine? with
  | none =>
    have hn := firstLine?_eq_none_iff.mp h
    rw [opening_eq_self hn, frame, frames_of_not_mem hn]
    rfl
  | some x =>
    rw [frame, frames_of_firstLine? h, ← length_of_firstLine? h]
    rfl

end Bytes

namespace LineReader

open Bytes

variable {r : LineReader} {w w' : Wire} {s : Bytes} {x : Reading} {fs : Nat → Frame}
  {limit initial initial' : Nat}

theorem Reads.poll_of_exhausted (h : Reads r w x) {c : Exhaustion}
    (hx : x.result = some (.error (.exhausted c))) : x.reader.poll = .failure (.exhausted c) := by
  induction h with
  | failure hp =>
    obtain rfl := Except.error.inj (Option.some.inj hx)
    exact hp
  | bytes _ _ _ _ ih | pause _ _ _ ih => exact ih hx
  | frame | ended | broken | wait => cases hx

/-- Nothing is taken out of the buffer, and every later call fails in the same way, without a read.
-/
structure Jams (r : LineReader) (x : Reading) : Prop where
  kept : r.buffer <+: x.reader.buffer
  again : ∀ w, x.reader.readRecord w = ⟨x.result, x.reader, w, []⟩

theorem Reads.jams (h : Reads r w x) {c : Exhaustion}
    (hx : x.result = some (.error (.exhausted c))) : r.Jams x where
  kept := by
    obtain ⟨got, -, -, hbuffer⟩ := h.taken
    rw [Reading.given, hx] at hbuffer
    exact ⟨got, hbuffer.symm⟩
  again w := by
    rw [hx]
    exact (Reads.failure (h.poll_of_exhausted hx)).eq_readRecord

/-- The frames that are still to come, some of them perhaps beyond the limit of the reader. -/
structure Offers (r : LineReader) (w : Wire) (fs : Nat → Frame) : Prop where
  sound : r.Sound
  initial_le : r.initial ≤ greatestCapacity
  frames : ∃ s, w.Delivers s ∧ ∀ i, (r.buffer ++ s).frame i = fs i

/-- No buffer is refused that a frame asks for within the limit. -/
theorem affords_of_min (hl : r.limit = some limit) (hi : r.initial ≤ greatestCapacity)
    (hs : 2 * min (s.frame 0).bytes.length limit ≤ greatestCapacity) : r.Affords s := by
  intro n hn he
  have hle : n ≤ (s.frame 0).bytes.length := hn.trans (length_opening_le_frame s)
  have hlim : n + 1 ≤ limit := excess?_eq_none_iff.mp he limit hl
  exact max_le (by omega) hi

theorem lt_of_poll_failure {length m : Nat}
    (h : r.poll = .failure (.exhausted (.recordTooLong length m))) : m < length := by
  generalize hc : LogError.exhausted (.recordTooLong length m) = cause at h
  cases h ▸ r.polled with
  | overlong _ hl | overfull _ hl =>
    obtain ⟨_, -, hlt, rfl⟩ := exists_of_excess? hl
    obtain ⟨rfl, rfl⟩ := Exhaustion.recordTooLong.inj (LogError.exhausted.inj hc)
    exact hlt
  | unaffordable => cases hc

theorem First.recordLength_le {f : Frame} (h : First r.limit s (.ok f))
    (hl : r.limit = some limit) : f.recordLength ≤ limit := by
  cases h with
  | line _ hle | whole _ hle => exact hle limit hl

theorem Offers.readRecord (h : Offers r w fs) (hl : r.limit = some limit)
    (hs : 2 * min (fs 0).bytes.length limit ≤ greatestCapacity) :
    ((fs 0).recordLength ≤ limit → (r.readRecord w).result = some (.ok (fs 0)) ∧
      Offers (r.readRecord w).reader (r.readRecord w).wire fun i => fs (i + 1)) ∧
    (limit < (fs 0).recordLength → ∃ length, limit < length ∧
      (r.readRecord w).result = some (.error (.exhausted (.recordTooLong length limit)))) := by
  obtain ⟨s, hw, hf⟩ := h.frames
  have hlen := recordLength_frame_zero (r.buffer ++ s)
  have hreads := readRecord_reads r w
  have ha : r.Affords (r.buffer ++ s) := affords_of_min hl h.initial_le (hf 0 ▸ hs)
  obtain ⟨res, t, hres, hfirst, ht, hok⟩ := readRecord_first h.sound hw ha
  rw [← hf 0]
  cases res with
  | ok f =>
    obtain ⟨rfl, hshift⟩ := hok f rfl
    have hfits := hfirst.recordLength_le hl
    have hoffers : Offers (r.readRecord w).reader (r.readRecord w).wire fun i => fs (i + 1) :=
      { sound := hreads.keeps.2.2 h.sound
        initial_le := hreads.keeps.2.1 ▸ h.initial_le
        frames := ⟨t, ht, fun i => (hshift i).trans (hf (i + 1))⟩ }
    exact ⟨fun _ => ⟨hres, hoffers⟩, fun hlt => absurd hfits (Nat.not_le_of_lt hlt)⟩
  | error =>
    cases hfirst with
    | @tooLong length m hm hlt =>
      obtain rfl := Option.some.inj (hl.symm.trans hm)
      rw [hlen]
      exact ⟨fun hle => absurd hlt (Nat.not_lt_of_le hle),
        fun _ => ⟨length, lt_of_poll_failure (hreads.poll_of_exhausted hres), hres⟩⟩

/-- The call with the given number, counted from 0. -/
def call (i : Nat) (r : LineReader) (w : Wire) : Reading :=
  (behind i r w).1.readRecord (behind i r w).2

theorem call_reads (i : Nat) (r : LineReader) (w : Wire) :
    Reads (behind i r w).1 (behind i r w).2 (call i r w) :=
  readRecord_reads _ _

theorem behind_succ (i : Nat) (r : LineReader) (w : Wire) :
    behind (i + 1) r w = ((call i r w).reader, (call i r w).wire) := by
  induction i generalizing r w with
  | zero => rfl
  | succ i ih => rw [behind, ih]; rfl

theorem limit_behind (i : Nat) (r : LineReader) (w : Wire) :
    (behind i r w).1.limit = r.limit := by
  induction i with
  | zero => rfl
  | succ i ih => rw [behind_succ, ← ih, (call_reads i r w).keeps.1]

theorem Offers.behind (h : Offers r w fs) (hl : r.limit = some limit)
    (hs : ∀ i, 2 * min (fs i).bytes.length limit ≤ greatestCapacity) (i : Nat)
    (hfits : ∀ j < i, (fs j).recordLength ≤ limit) :
    Offers (behind i r w).1 (behind i r w).2 fun k => fs (i + k) := by
  induction i with
  | zero =>
    simp only [Nat.zero_add]
    exact h
  | succ i ih =>
    have hi := ih fun j hj => hfits j (hj.trans (Nat.lt_succ_self i))
    have hnext := ((hi.readRecord ((limit_behind i r w).trans hl) (hs i)).1
      (hfits i (Nat.lt_succ_self i))).2
    have hshift : (fun k => fs (i + 1 + k)) = fun k => fs (i + (k + 1)) := by
      funext k
      rw [Nat.add_assoc, Nat.add_comm 1]
    rw [behind_succ, hshift]
    exact hnext

theorem call_of_exhausted {k i : Nat} (hi : k ≤ i) {c : Exhaustion}
    (hk : (call k r w).result = some (.error (.exhausted c))) :
    (call i r w).result = some (.error (.exhausted c)) := by
  induction i, hi using Nat.le_induction with
  | base => exact hk
  | succ i _ ih => rw [call, behind_succ, ((call_reads i r w).jams ih).again, ih]

theorem Offers.calls (h : Offers r w fs) (hl : r.limit = some limit)
    (hs : ∀ i, 2 * min (fs i).bytes.length limit ≤ greatestCapacity) :
    ∃ length, limit < length ∧ ∀ i,
      ((∀ j ≤ i, (fs j).recordLength ≤ limit) → (call i r w).result = some (.ok (fs i))) ∧
      ((∃ j ≤ i, limit < (fs j).recordLength) →
        (call i r w).result = some (.error (.exhausted (.recordTooLong length limit)))) := by
  have hcall (i : Nat) (hfits : ∀ j < i, (fs j).recordLength ≤ limit) :=
    (h.behind hl hs i hfits).readRecord ((limit_behind i r w).trans hl) (hs i)
  have hok (i : Nat) (hfits : ∀ j ≤ i, (fs j).recordLength ≤ limit) :
      (call i r w).result = some (.ok (fs i)) :=
    ((hcall i fun j hj => hfits j hj.le).1 (hfits i le_rfl)).1
  by_cases hx : ∃ k, limit < (fs k).recordLength
  · -- the first record that is too long settles the message of every call from there on
    obtain ⟨k, hk, hmin⟩ : ∃ k, limit < (fs k).recordLength ∧
        ∀ j, limit < (fs j).recordLength → k ≤ j :=
      ⟨Nat.find hx, Nat.find_spec hx, fun _ hj => Nat.find_min' hx hj⟩
    obtain ⟨length, hlt, hres⟩ :=
      (hcall k fun j hj => le_of_not_gt fun hgt => hj.not_ge (hmin j hgt)).2 hk
    refine ⟨length, hlt, fun i => ⟨hok i, ?_⟩⟩
    rintro ⟨j, hji, hj⟩
    exact call_of_exhausted ((hmin j hj).trans hji) hres
  · refine ⟨limit + 1, Nat.lt_succ_self limit, fun i => ⟨hok i, ?_⟩⟩
    rintro ⟨j, -, hj⟩
    exact absurd ⟨j, hj⟩ hx

theorem offers_ofInitial (hw : w.Delivers s) (hi : initial ≤ greatestCapacity)
    (limit : Option Nat) : Offers (ofInitial initial limit) w s.frame where
  sound := ofInitial_sound initial limit
  initial_le := max_le hi (by decide)
  frames := ⟨s, hw, fun _ => rfl⟩

/-- Call after call a reader returns the lines of a stream and then its rest, until a record is too
long, counting the newline that the rest still lacks. That call and all later ones fail with the
same message; they take nothing out of the buffer, and the later ones read nothing. The pieces of
the stream and the initial capacity do not matter, as long as memory can be had for the lines or at
least up to the limit. -/
theorem calls_limited (hw : w.Delivers s) (hi : initial ≤ greatestCapacity)
    (hs : ∀ f ∈ s.frames, 2 * min f.bytes.length limit ≤ greatestCapacity) :
    (∃ length, limit < length ∧ ∀ i,
      let x := call i (ofInitial initial (some limit)) w
      ((∀ j ≤ i, (s.frame j).recordLength ≤ limit) → x.result = some (.ok (s.frame i))) ∧
      ((∃ j ≤ i, limit < (s.frame j).recordLength) →
        x.result = some (.error (.exhausted (.recordTooLong length limit))) ∧
          Jams (behind i (ofInitial initial (some limit)) w).1 x)) ∧
      (w'.Delivers s → initial' ≤ greatestCapacity → ∀ i,
        (call i (ofInitial initial' (some limit)) w').result.map Except.toOption =
          (call i (ofInitial initial (some limit)) w).result.map Except.toOption) := by
  have hs' : ∀ i, 2 * min (s.frame i).bytes.length limit ≤ greatestCapacity := by
    intro i
    rw [frame, List.getD_eq_getElem?_getD]
    cases hf : s.frames[i]? with
    | none => simp
    | some f => exact hs f (List.mem_of_getElem? hf)
  obtain ⟨length, hlt, hcalls⟩ := (offers_ofInitial hw hi (some limit)).calls rfl hs'
  refine ⟨⟨length, hlt, fun i => ⟨(hcalls i).1, fun hx => ?_⟩⟩, fun hw' hi' i => ?_⟩
  · have hres := (hcalls i).2 hx
    exact ⟨hres, (call_reads _ _ _).jams hres⟩
  · obtain ⟨length', -, hcalls'⟩ := (offers_ofInitial hw' hi' (some limit)).calls rfl hs'
    by_cases hfits : ∀ j ≤ i, (s.frame j).recordLength ≤ limit
    · rw [(hcalls i).1 hfits, (hcalls' i).1 hfits]
    · have hx : ∃ j ≤ i, limit < (s.frame j).recordLength := by simpa using hfits
      rw [(hcalls i).2 hx, (hcalls' i).2 hx]
      rfl

def overlong : Wire where
  arrivals := [.chunk [97], .pause, .chunk [10, 98], .chunk [99, 100, 10, 101]]

/-- Two bytes are enough for the first line and not for the second. -/
theorem calls_overlong :
    overlong.Delivers [97, 10, 98, 99, 100, 10, 101] ∧
      (∀ f ∈ frames [97, 10, 98, 99, 100, 10, 101],
        2 * min f.bytes.length 2 ≤ greatestCapacity) ∧
      (call 0 (ofInitial 0 (some 2)) overlong).result = some (.ok ⟨[97, 10], true⟩) ∧
      (∃ length, 2 < length ∧ ∀ i, 0 < i →
        (call i (ofInitial 0 (some 2)) overlong).result =
          some (.error (.exhausted (.recordTooLong length 2)))) ∧
      (call 1 (ofInitial 9 (some 2))
        { arrivals := [.chunk [97, 10, 98, 99, 100, 10, 101]] }).result.map Except.toOption =
          some none := by
  have hw : overlong.Delivers [97, 10, 98, 99, 100, 10, 101] := ⟨rfl, by simp [overlong], rfl⟩
  have hw' : Wire.Delivers { arrivals := [.chunk [97, 10, 98, 99, 100, 10, 101]] }
      [97, 10, 98, 99, 100, 10, 101] := ⟨rfl, by simp, rfl⟩
  have hs : ∀ f ∈ frames [97, 10, 98, 99, 100, 10, 101],
      2 * min f.bytes.length 2 ≤ greatestCapacity := by decide
  obtain ⟨⟨length, hlt, hcalls⟩, hcut⟩ := calls_limited hw (Nat.zero_le _) hs
  have hover : ∃ j ≤ 1, 2 < (frame [97, 10, 98, 99, 100, 10, 101] j).recordLength :=
    ⟨1, le_rfl, by decide⟩
  have hrefused (i : Nat) (hi : 0 < i) : (call i (ofInitial 0 (some 2)) overlong).result =
      some (.error (.exhausted (.recordTooLong length 2))) :=
    ((hcalls i).2 (hover.imp fun _ hj => ⟨hj.1.trans hi, hj.2⟩)).1
  refine ⟨hw, hs, (hcalls 0).1 (by decide), ⟨length, hlt, hrefused⟩, ?_⟩
  rw [hcut hw' (by decide), hrefused 1 Nat.zero_lt_one]
  rfl

end LineReader

end CommandLog
