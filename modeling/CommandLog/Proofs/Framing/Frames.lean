import CommandLog.Proofs.Framing.Lines
import CommandLog.Proofs.Framing.Reader

/-! # The frames of a stream

Call after call a reader without a limit returns the lines of a stream, then the rest that no
newline ends, and from then on empty frames, whatever the pieces in which the stream comes in and
whatever the capacity with which the buffer begins. Of each call it is enough to know that no byte
is lost: those returned, those in the buffer and those still to come are the bytes there were.
-/

namespace CommandLog

namespace Wire

variable {w w' : Wire} {s bs : Bytes} {room : Nat}

theorem length_got_le (w : Wire) (room : Nat) : (w.read room).1.got.length ≤ room := by
  unfold read
  split
  next bs rest _ =>
    split
    · assumption
    · exact List.length_take_le _ _
  next => exact Nat.zero_le _
  next => exact Nat.zero_le _
  next => split <;> exact Nat.zero_le _

theorem ahead_lt_of_bytes (h : w.read room = (.bytes bs, w')) (hne : bs ≠ []) :
    w'.ahead < w.ahead := by
  unfold read at h
  split at h
  case h_1 chunk rest ha =>
    split at h <;> obtain ⟨he, rfl⟩ := Prod.mk.inj h
    case isTrue =>
      simp only [ahead, unread, ha, List.length_cons, List.foldr_cons, Arrival.length]
      omega
    case isFalse hlt =>
      obtain rfl := Reading.bytes.inj he
      have hpos : room ≠ 0 := by
        rintro rfl
        exact hne List.take_zero
      simp only [ahead, unread, ha, List.length_cons, List.foldr_cons, Arrival.length,
        List.length_drop]
      omega
  case h_2 => cases h
  case h_3 => cases h
  case h_4 =>
    split at h
    · obtain ⟨he, -⟩ := Prod.mk.inj h
      exact absurd (Reading.bytes.inj he).symm hne
    · cases h

theorem Delivers.read_snd (h : w.Delivers s) (room : Nat) : ∃ t, (w.read room).2.Delivers t := by
  have hc := h.cut
  refine ⟨_, rfl, fun a ha => ?_, by rw [w.read_snd]; exact h.ends⟩
  unfold Wire.read at ha
  split at ha
  next bs rest hw =>
    rw [hw] at hc
    split at ha
    · exact hc a (List.mem_cons_of_mem _ ha)
    · rcases List.mem_cons.mp ha with rfl | ha
      · exact .inr ⟨_, by simp; omega, rfl⟩
      · exact hc a (List.mem_cons_of_mem _ ha)
  next hw => exact hc a (hw ▸ List.mem_cons_of_mem _ ha)
  next hw => exact hc a (hw ▸ List.mem_cons_of_mem _ ha)
  next => exact hc a ha

theorem ahead_lt_of_pause (h : w.read room = (.pause, w')) : w'.ahead < w.ahead := by
  unfold read at h
  split at h
  case h_1 => split at h <;> cases h
  case h_2 => cases h
  case h_3 rest ha =>
    obtain ⟨-, rfl⟩ := Prod.mk.inj h
    simp [ahead, unread, ha, Arrival.length]
  case h_4 => split at h <;> cases h

end Wire

namespace LineReader

variable {r next : LineReader} {w w' : Wire} {s : Bytes} {x : Reading} {initial : Nat}

def Reading.given (x : Reading) : Bytes :=
  match x.result with
  | some (.ok f) => f.bytes
  | _ => []

/-- How a call goes, read by read. -/
inductive Reads : LineReader → Wire → Reading → Prop where
  | frame {r next : LineReader} {w : Wire} {f : Frame} : r.poll = .frame f next →
      Reads r w ⟨some (.ok f), next, w, []⟩
  | failure {r : LineReader} {w : Wire} {cause : LogError} : r.poll = .failure cause →
      Reads r w ⟨some (.error cause), r, w, []⟩
  | ended {r next : LineReader} {w w' : Wire} {room : Nat} : r.poll = .bytes room next →
      w.read room = (.bytes [], w') → Reads r w ⟨some (.ok next.close.1), next.close.2, w', [0]⟩
  | bytes {r next : LineReader} {w w' : Wire} {room : Nat} {bs : Bytes} {x : Reading} :
      r.poll = .bytes room next → w.read room = (.bytes bs, w') → bs ≠ [] →
      Reads (next.take bs) w' x → Reads r w { x with reads := bs.length :: x.reads }
  | broken {r next : LineReader} {w w' : Wire} {room : Nat} {cause : IoError} :
      r.poll = .bytes room next → w.read room = (.failure cause, w') →
      Reads r w ⟨some (.error (.io cause)), next, w', []⟩
  | pause {r next : LineReader} {w w' : Wire} {room : Nat} {x : Reading} :
      r.poll = .bytes room next → w.read room = (.pause, w') → Reads next w' x → Reads r w x
  | wait {r next : LineReader} {w w' : Wire} {room : Nat} : r.poll = .bytes room next →
      w.read room = (.wait, w') → Reads r w ⟨none, next, w', []⟩

theorem readWithin_reads {n : Nat} (hn : w.ahead < n) : Reads r w (readWithin n r w) := by
  -- on the fuel: less lies ahead after each read that lets the call go on
  induction n generalizing r w with
  | zero => exact absurd hn (Nat.not_lt_zero _)
  | succ n ih =>
    rw [readWithin]
    split
    case h_1 hp => exact .frame hp
    case h_2 hp => exact .failure hp
    case h_3 hp =>
      split
      case h_1 hr => exact .ended hp hr
      case h_2 bs w' hne hr =>
        have hlt := Wire.ahead_lt_of_bytes hr hne
        exact .bytes hp hr hne (ih (by omega))
      case h_3 hr => exact .broken hp hr
      case h_4 hr =>
        have hlt := Wire.ahead_lt_of_pause hr
        exact .pause hp hr (ih (by omega))
      case h_5 hr => exact .wait hp hr

theorem ahead_lt_fuel (w : Wire) : w.ahead < w.arrivals.length + w.unread + 2 := by
  rw [Wire.ahead]
  omega

theorem readRecord_reads (r : LineReader) (w : Wire) : Reads r w (r.readRecord w) :=
  readWithin_reads (ahead_lt_fuel w)

theorem of_poll_bytes {room : Nat} (h : r.poll = .bytes room next) :
    next.buffer = r.buffer ∧ next.limit = r.limit ∧ next.initial = r.initial ∧
      (r.Sound → next.Sound ∧ next.buffered + room ≤ next.capacity) := by
  cases h ▸ r.polled with
  | bytes _ _ hc =>
    refine ⟨rfl, rfl, rfl, fun hr => ?_⟩
    have hlt := hc hr
    exact ⟨⟨hlt.le, hr.initial_pos⟩, (Nat.add_sub_cancel' hlt.le).le⟩

theorem Sound.take {room : Nat} {bs : Bytes} (h : r.Sound) (hp : r.poll = .bytes room next)
    (hr : w.read room = (.bytes bs, w')) : (next.take bs).Sound := by
  obtain ⟨-, -, -, hs⟩ := of_poll_bytes hp
  refine ⟨?_, (hs h).1.initial_pos⟩
  have hle := w.length_got_le room
  rw [hr] at hle
  have hroom := (hs h).2
  simp only [Wire.Reading.got, buffered, LineReader.take, List.length_append] at *
  omega

theorem Reads.given (h : Reads r w x) :
    x.given ++ x.reader.buffer ++ x.wire.awaited = r.buffer ++ w.awaited := by
  induction h with
  | @frame r _ w f hp =>
    cases hp ▸ r.polled with
    | line hl =>
      obtain ⟨_, -, -, hs⟩ := Bytes.firstLine?_eq_some_iff.mp hl
      rw [hs]
      rfl
  | failure => rfl
  | @ended r _ w _ room hp hr =>
    have hg := w.read_awaited room
    rw [hr] at hg
    rw [← (of_poll_bytes hp).1, ← hg]
    simp [Reading.given, close, Wire.Reading.got]
  | @bytes r _ w _ room bs x hp hr _ _ ih =>
    have hg := w.read_awaited room
    rw [hr] at hg
    rw [← hg, ← List.append_assoc, ← (of_poll_bytes hp).1]
    exact ih
  | @broken r _ w _ room _ hp hr | @wait r _ w _ room hp hr =>
    have hg := w.read_awaited room
    rw [hr] at hg
    rw [← hg, ← (of_poll_bytes hp).1]
    rfl
  | @pause r _ w _ room _ hp hr _ ih =>
    have hg := w.read_awaited room
    rw [hr] at hg
    rw [← hg, ← (of_poll_bytes hp).1]
    exact ih

theorem Reads.keeps (h : Reads r w x) :
    x.reader.limit = r.limit ∧ x.reader.initial = r.initial ∧ (r.Sound → x.reader.Sound) := by
  induction h with
  | @frame r _ _ _ hp =>
    cases hp ▸ r.polled with
    | line => exact ⟨rfl, rfl, fun hr => ⟨le_rfl, hr.initial_pos⟩⟩
  | failure => exact ⟨rfl, rfl, id⟩
  | ended hp =>
    obtain ⟨-, hl, hi, hs⟩ := of_poll_bytes hp
    exact ⟨hl, hi, fun hr => ⟨le_rfl, (hs hr).1.initial_pos⟩⟩
  | bytes hp hr _ _ ih =>
    obtain ⟨-, hl, hi, -⟩ := of_poll_bytes hp
    exact ⟨ih.1.trans hl, ih.2.1.trans hi, fun hsound => ih.2.2 (hsound.take hp hr)⟩
  | broken hp | wait hp =>
    obtain ⟨-, hl, hi, hs⟩ := of_poll_bytes hp
    exact ⟨hl, hi, fun hr => (hs hr).1⟩
  | pause hp _ _ ih =>
    obtain ⟨-, hl, hi, hs⟩ := of_poll_bytes hp
    exact ⟨ih.1.trans hl, ih.2.1.trans hi, fun hr => ih.2.2 (hs hr).1⟩

theorem Reads.delivers (h : Reads r w x) (hw : w.Delivers s) : ∃ t, x.wire.Delivers t := by
  induction h generalizing s with
  | frame | failure => exact ⟨s, hw⟩
  | @ended _ _ _ _ room _ hr | @broken _ _ _ _ room _ _ hr | @wait _ _ _ _ room _ hr =>
    have ht := hw.read_snd room
    rwa [hr] at ht
  | @bytes _ _ _ _ room _ _ _ hr _ _ ih | @pause _ _ _ _ room _ _ hr _ ih =>
    have ht := hw.read_snd room
    rw [hr] at ht
    obtain ⟨t, ht⟩ := ht
    exact ih ht

end LineReader

namespace Bytes

/-- The lines of a byte string as frames, and then the frame of its rest. -/
def frames (s : Bytes) : List Frame :=
  s.lines.map (⟨·, true⟩) ++ [⟨s.unfinished, false⟩]

/-- The frames of a byte string by number; behind the last there are only empty ones. -/
def frame (s : Bytes) (i : Nat) : Frame :=
  s.frames.getD i ⟨[], false⟩

variable {s l rest : Bytes}

theorem frames_of_firstLine? (h : s.firstLine? = some (l, rest)) :
    s.frames = ⟨l, true⟩ :: rest.frames := by
  simp [frames, lines, unfinished, splitLines_of_firstLine? h]

theorem frames_of_not_mem (h : newline ∉ s) : s.frames = [⟨s, false⟩] := by
  simp [frames, lines, unfinished, splitLines_of_not_mem h]

theorem frame_nil (i : Nat) : frame [] i = ⟨[], false⟩ := by
  cases i <;> rfl

theorem frames_flatten {ls : List Bytes} (hl : ∀ l ∈ ls, l.IsLine) :
    frames ls.flatten = ls.map (⟨·, true⟩) ++ [⟨[], false⟩] := by
  have h := splitLines_flatten_append hl (List.not_mem_nil : newline ∉ [])
  rw [List.append_nil] at h
  rw [frames, lines, unfinished, h]

theorem length_frame_le (s : Bytes) (i : Nat) : (s.frame i).bytes.length ≤ s.length := by
  have hsum : s.lines.flatten.length + s.unfinished.length = s.length := by
    rw [← List.length_append, flatten_lines_append_unfinished]
  have hall : ∀ f ∈ s.frames, f.bytes.length ≤ s.length := by
    intro f hf
    rcases List.mem_append.mp hf with hf | hf
    · obtain ⟨l, hl, rfl⟩ := List.mem_map.mp hf
      have hle : l.length ≤ s.lines.flatten.length := (List.sublist_flatten_of_mem hl).length_le
      exact hle.trans (by omega)
    · obtain rfl := List.mem_singleton.mp hf
      exact Nat.le_of_add_left_le hsum.le
  rw [frame, List.getD_eq_getElem?_getD]
  cases hf : s.frames[i]? with
  | none => exact Nat.zero_le _
  | some f => exact hall f (List.mem_of_getElem? hf)

theorem length_opening_le_frame (s : Bytes) : (opening s).length ≤ (s.frame 0).bytes.length := by
  cases h : s.firstLine? with
  | none =>
    have hn := firstLine?_eq_none_iff.mp h
    rw [opening_eq_self hn, frame, frames_of_not_mem hn]
    exact le_rfl
  | some x =>
    rw [frame, frames_of_firstLine? h]
    exact (length_of_firstLine? h).ge.trans' (Nat.le_succ _)

end Bytes

namespace LineReader

open Bytes

variable {r : LineReader} {w w' : Wire} {s : Bytes} {initial initial' : Nat}

/-- A buffer that doubles can take in the first frame. -/
theorem affords_of_frame (hi : r.initial ≤ greatestCapacity)
    (hs : 2 * (s.frame 0).bytes.length ≤ greatestCapacity) : r.Affords s := by
  intro n hn _
  have hle : n ≤ (s.frame 0).bytes.length := hn.trans (length_opening_le_frame s)
  exact max_le (by omega) hi

/-- A call comes to what is due first of the bytes in the buffer and still to come; a frame leaves
those after it. -/
theorem readRecord_first (hr : r.Sound) (hw : w.Delivers s) (ha : r.Affords (r.buffer ++ s)) :
    ∃ res t, (r.readRecord w).result = some res ∧ First r.limit (r.buffer ++ s) res ∧
      (r.readRecord w).wire.Delivers t ∧ ∀ f, res = .ok f → f = (r.buffer ++ s).frame 0 ∧
        ∀ i, ((r.readRecord w).reader.buffer ++ t).frame i = (r.buffer ++ s).frame (i + 1) := by
  obtain ⟨res, hres, hfirst⟩ := readWithin_first (ahead_lt_fuel w) hr hw ha
  have hreads := readRecord_reads r w
  change (r.readRecord w).result = some res at hres
  generalize r.readRecord w = x at hres hreads ⊢
  obtain ⟨t, ht⟩ := hreads.delivers hw
  refine ⟨res, t, hres, hfirst, ht, ?_⟩
  rintro f rfl
  have hgiven := hreads.given
  rw [ht.whole, hw.whole, List.append_assoc] at hgiven
  cases hfirst with
  | @line l rest h =>
    obtain ⟨_, -, -, hs⟩ := firstLine?_eq_some_iff.mp h
    have hrest : x.reader.buffer ++ t = rest := by
      simp only [Reading.given, hres, hs] at hgiven
      exact List.append_cancel_left hgiven
    have hf := frames_of_firstLine? h
    refine ⟨by rw [frame, hf]; rfl, fun i => ?_⟩
    rw [hrest, frame, frame, hf, List.getD_cons_succ]
  | whole h =>
    have hrest : x.reader.buffer ++ t = [] := by
      simpa [Reading.given, hres] using hgiven
    have hf := frames_of_not_mem h
    refine ⟨by rw [frame, hf]; rfl, fun i => ?_⟩
    rw [hrest, frame_nil, frame, hf]
    rfl

theorem readRecord_frame (hr : r.Sound) (hl : r.limit = none) (hw : w.Delivers s)
    (ha : r.Affords (r.buffer ++ s)) :
    (r.readRecord w).result = some (.ok ((r.buffer ++ s).frame 0)) ∧
      ∃ t, (r.readRecord w).wire.Delivers t ∧
        ∀ i, ((r.readRecord w).reader.buffer ++ t).frame i = (r.buffer ++ s).frame (i + 1) := by
  obtain ⟨res, t, hres, hfirst, ht, hok⟩ := readRecord_first hr hw ha
  obtain ⟨f, rfl⟩ : ∃ f, res = .ok f := by
    cases hfirst with
    | line | whole => exact ⟨_, rfl⟩
    | tooLong hm => cases hl.symm.trans hm
  obtain ⟨rfl, hframe⟩ := hok f rfl
  exact ⟨hres, t, ht, hframe⟩

def readRecords : Nat → LineReader → Wire → List (Option (Except LogError Frame))
  | 0, _, _ => []
  | n + 1, r, w =>
    let x := r.readRecord w
    x.result :: readRecords n x.reader x.wire

theorem readRecords_frame_of_le (hr : r.Sound) (hl : r.limit = none) (hw : w.Delivers s)
    (hi : r.initial ≤ greatestCapacity)
    (hs : ∀ i, 2 * ((r.buffer ++ s).frame i).bytes.length ≤ greatestCapacity) (n : Nat) :
    readRecords n r w = (List.range n).map fun i => some (.ok ((r.buffer ++ s).frame i)) := by
  -- on the calls: each hands on a reader and a wire of which the same holds, one frame later
  induction n generalizing r w s with
  | zero => rfl
  | succ n ih =>
    obtain ⟨hres, t, ht, hframe⟩ := readRecord_frame hr hl hw (affords_of_frame hi (hs 0))
    obtain ⟨hlimit, hinitial, hsound⟩ := (readRecord_reads r w).keeps
    have hs' : ∀ i, 2 * (((r.readRecord w).reader.buffer ++ t).frame i).bytes.length ≤
        greatestCapacity := fun i => hframe i ▸ hs (i + 1)
    rw [readRecords, ih (hsound hr) (hlimit.trans hl) ht (hinitial ▸ hi) hs',
      List.range_succ_eq_map, List.map_cons, List.map_map, hres]
    simp only [hframe, Function.comp_def]

theorem readRecords_frame (hr : r.Sound) (hl : r.limit = none) (hw : w.Delivers s)
    (hi : r.initial ≤ greatestCapacity) (hs : 2 * (r.buffer ++ s).length ≤ greatestCapacity)
    (n : Nat) :
    readRecords n r w = (List.range n).map fun i => some (.ok ((r.buffer ++ s).frame i)) :=
  readRecords_frame_of_le hr hl hw hi
    (fun i => (Nat.mul_le_mul_left 2 (length_frame_le _ i)).trans hs) n

theorem readRecords_lines {ls : List Bytes} (hl : ∀ l ∈ ls, l.IsLine) (hw : w.Delivers ls.flatten)
    (hi : initial ≤ greatestCapacity) (hs : ∀ l ∈ ls, 2 * l.length ≤ greatestCapacity) (n : Nat) :
    readRecords n (ofInitial initial none) w =
      (List.range n).map fun i => some (.ok ((ls.map (⟨·, true⟩ : Bytes → Frame)).getD i
        ⟨[], false⟩)) := by
  have hf (i : Nat) : frame ls.flatten i =
      (ls.map (⟨·, true⟩ : Bytes → Frame)).getD i ⟨[], false⟩ := by
    rw [frame, frames_flatten hl, List.getD_eq_getElem?_getD, List.getD_eq_getElem?_getD]
    rcases Nat.lt_or_ge i ls.length with hlt | hge
    · rw [List.getElem?_append_left (by simpa using hlt)]
    · rw [List.getElem?_append_right (by simpa using hge), List.getElem?_singleton,
        List.getElem?_eq_none (by simpa using hge)]
      split <;> rfl
  have hle : ∀ i, 2 * (frame ls.flatten i).bytes.length ≤ greatestCapacity := by
    intro i
    rw [hf, List.getD_eq_getElem?_getD, List.getElem?_map]
    cases h : ls[i]? with
    | none => exact Nat.zero_le _
    | some l => exact hs l (List.mem_of_getElem? h)
  have hmax : max initial 1 ≤ greatestCapacity := max_le hi (by decide)
  have h : readRecords n (ofInitial initial none) w = _ :=
    readRecords_frame_of_le (ofInitial_sound _ _) rfl hw hmax hle n
  rw [h]
  exact List.map_congr_left fun i _ => congrArg (some ∘ Except.ok) (hf i)

/-- Call after call a reader returns the lines of a stream, then its rest, then empty frames; the
pieces and pauses of the stream and the initial capacity do not matter. -/
theorem readRecords_eq_frames (hw : w.Delivers s) (hi : initial ≤ greatestCapacity)
    (hs : 2 * s.length ≤ greatestCapacity) (n : Nat) :
    readRecords n (ofInitial initial none) w =
        ((List.range n).map fun i => some (.ok (s.frames.getD i ⟨[], false⟩))) ∧
      (w'.Delivers s → initial' ≤ greatestCapacity →
        readRecords n (ofInitial initial' none) w' = readRecords n (ofInitial initial none) w) := by
  have hmax {k : Nat} (hk : k ≤ greatestCapacity) : max k 1 ≤ greatestCapacity :=
    max_le hk (by decide)
  have h : readRecords n (ofInitial initial none) w = _ :=
    readRecords_frame (ofInitial_sound _ _) rfl hw (hmax hi) hs n
  refine ⟨h, fun hw' hi' => ?_⟩
  rw [h]
  exact readRecords_frame (ofInitial_sound _ _) rfl hw' (hmax hi') hs n

/-- Two lines and a rest, in pieces that end beside the newlines. -/
def pieces : Wire where
  arrivals := [.chunk [97], .pause, .chunk [10, 98], .pause, .pause, .chunk [10, 99]]

theorem readRecords_pieces :
    pieces.Delivers [97, 10, 98, 10, 99] ∧
      readRecords 5 (ofInitial 0 none) pieces =
        [some (.ok ⟨[97, 10], true⟩), some (.ok ⟨[98, 10], true⟩), some (.ok ⟨[99], false⟩),
          some (.ok ⟨[], false⟩), some (.ok ⟨[], false⟩)] ∧
      readRecords 5 (ofInitial 3 none) { arrivals := [.chunk [97, 10, 98, 10, 99]] } =
        readRecords 5 (ofInitial 0 none) pieces := by
  have hw : pieces.Delivers [97, 10, 98, 10, 99] := ⟨rfl, by simp [pieces], rfl⟩
  have hw' : Wire.Delivers { arrivals := [.chunk [97, 10, 98, 10, 99]] } [97, 10, 98, 10, 99] :=
    ⟨rfl, by simp, rfl⟩
  obtain ⟨h, h'⟩ := readRecords_eq_frames hw (Nat.zero_le _) (by decide) 5
  exact ⟨hw, h, h' hw' (by decide)⟩

end LineReader

end CommandLog
