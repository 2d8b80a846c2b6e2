import CommandLog.Proofs.Framing.Limit

/-! # The room in a buffer

The capacity of a buffer does not only grow: it doubles, falls to the length of what is left after a
line, and to nothing at the end of a stream. Through all this a reader that asks for bytes has room
for one at least, and it asks for none while a line is in its buffer. The capacity is bounded by
what memory can give, so that it can be doubled in a word, and under a limit by the records that
the limit admits.
-/

namespace CommandLog

namespace Wire

variable {w w' : Wire} {room : Nat}

/-- Nothing more arrives, or the next thing that arrives reads as the end. -/
def AtEnd (w : Wire) : Prop :=
  w.arrivals = [] ∧ w.ends = true ∨ ∃ rest, w.arrivals = .chunk [] :: rest

theorem atEnd_of_read (hr : 0 < room) (h : w.read room = (.bytes [], w')) : w.AtEnd := by
  unfold read at h
  split at h
  case h_1 bs rest ha =>
    split at h <;> obtain ⟨he, -⟩ := Prod.mk.inj h
    case isTrue =>
      obtain rfl := Reading.bytes.inj he
      exact .inr ⟨rest, ha⟩
    case isFalse hlt =>
      have hlen := congrArg List.length (Reading.bytes.inj he)
      rw [List.length_take, List.length_nil] at hlen
      omega
  case h_2 => cases h
  case h_3 => cases h
  case h_4 ha =>
    split at h
    · exact .inl ⟨ha, ‹_›⟩
    · cases h

end Wire

namespace LineReader

variable {r r' next : LineReader} {w w' : Wire} {x : Reading} {room initial : Nat}

/-- A buffer that memory can hold, and that is no larger than the limit makes it. -/
structure Housed (r : LineReader) : Prop extends Sound r where
  affordable : r.capacity ≤ greatestCapacity
  limited : ∀ m ∈ r.limit, r.capacity ≤ max r.initial (2 * (m - 1))

theorem ofInitial_housed (initial : Nat) (limit : Option Nat) :
    (ofInitial initial limit).Housed where
  toSound := ofInitial_sound initial limit
  affordable := Nat.zero_le _
  limited _ _ := Nat.zero_le _

theorem grow_eq_ok_iff : r.grow = .ok next ↔ max (2 * r.capacity) r.initial ≤ greatestCapacity ∧
    next = { r with capacity := max (2 * r.capacity) r.initial } := by
  unfold grow
  dsimp only
  split
  · simp only [reduceCtorEq, false_iff, not_and]
    omega
  · simp only [Except.ok.injEq]
    constructor
    · rintro rfl
      exact ⟨by omega, rfl⟩
    · rintro ⟨-, rfl⟩
      rfl

theorem grow_eq_error_iff {cause : LogError} : r.grow = .error cause ↔
    greatestCapacity < max (2 * r.capacity) r.initial ∧ cause = .exhausted .bufferTooLarge := by
  unfold grow
  dsimp only
  split
  · simp only [Except.error.injEq, eq_comm, *, true_and]
  · simp only [reduceCtorEq, false_iff, not_and]
    omega

theorem poll_eq_bytes (h : r.poll = .bytes room next) :
    newline ∉ r.buffer ∧ r.excess? (r.buffered + 1) = none ∧
      room = next.capacity - next.buffered ∧
      (r.buffered ≠ r.capacity ∧ next = r ∨ r.buffered = r.capacity ∧ r.grow = .ok next) := by
  unfold poll at h
  split at h
  · split at h <;> cases h
  · rename_i hline
    have hn : newline ∉ r.buffer := Bytes.firstLine?_eq_none_iff.mp hline
    split at h
    · cases h
    · split at h
      · split at h
        · cases h
          exact ⟨hn, ‹_›, rfl, .inr ⟨‹_›, ‹_›⟩⟩
        · cases h
      · cases h
        exact ⟨hn, ‹_›, rfl, .inl ⟨‹_›, rfl⟩⟩

/-- A buffer that doubles because it is full was full of a record within the limit. -/
theorem Housed.poll (h : r.Housed) (hp : r.poll = .bytes room next) : next.Housed := by
  obtain ⟨-, hl, -, ⟨-, rfl⟩ | ⟨hfull, hg⟩⟩ := poll_eq_bytes hp
  · exact h
  · obtain ⟨hle, rfl⟩ := grow_eq_ok_iff.mp hg
    refine ⟨((of_poll_bytes hp).2.2.2 h.toSound).1, hle, ?_⟩
    intro m hm
    have hm' := excess?_eq_none_iff.mp hl m hm
    change max (2 * r.capacity) r.initial ≤ max r.initial (2 * (m - 1))
    omega

theorem Housed.take {bs : Bytes} (h : r.Housed) (hp : r.poll = .bytes room next)
    (hr : w.read room = (.bytes bs, w')) : (next.take bs).Housed where
  toSound := h.toSound.take hp hr
  affordable := (h.poll hp).affordable
  limited := (h.poll hp).limited

theorem Reads.housed (h : Reads r w x) (hr : r.Housed) : x.reader.Housed := by
  induction h with
  | @frame r _ _ _ hp =>
    cases hp ▸ r.polled with
    | @line l rest hl =>
      have hle : rest.length ≤ r.capacity := by
        obtain ⟨_, -, -, hs⟩ := Bytes.firstLine?_eq_some_iff.mp hl
        have hfits := hr.fits
        rw [buffered, hs, List.length_append] at hfits
        omega
      exact ⟨⟨le_rfl, hr.initial_pos⟩, hle.trans hr.affordable,
        fun m hm => hle.trans (hr.limited m hm)⟩
  | failure => exact hr
  | ended hp =>
    exact ⟨⟨le_rfl, (hr.poll hp).initial_pos⟩, Nat.zero_le _, fun _ _ => Nat.zero_le _⟩
  | bytes hp hread _ _ ih => exact ih (hr.take hp hread)
  | broken hp | wait hp => exact hr.poll hp
  | pause hp _ _ ih => exact ih (hr.poll hp)

theorem behind_housed (initial : Nat) (limit : Option Nat) (w : Wire) (n : Nat) :
    (behind n (ofInitial initial limit) w).1.Housed := by
  induction n with
  | zero => exact ofInitial_housed initial limit
  | succ n ih =>
    rw [behind_succ]
    exact (call_reads n _ w).housed ih

/-- The readers that a call polls, each with what is left of the stream by then. -/
inductive Polls : LineReader → Wire → LineReader → Wire → Prop where
  | first {r : LineReader} {w : Wire} : Polls r w r w
  | bytes {r next r' : LineReader} {w w' w'' : Wire} {room : Nat} {bs : Bytes} :
      r.poll = .bytes room next → w.read room = (.bytes bs, w') → bs ≠ [] →
      Polls (next.take bs) w' r' w'' → Polls r w r' w''
  | pause {r next r' : LineReader} {w w' w'' : Wire} {room : Nat} :
      r.poll = .bytes room next → w.read room = (.pause, w') → Polls next w' r' w'' →
      Polls r w r' w''

theorem Polls.readRecord (h : Polls r w r' w') : ∃ ns, r.readRecord w =
    { r'.readRecord w' with reads := ns ++ (r'.readRecord w').reads } := by
  induction h with
  | first => exact ⟨[], rfl⟩
  | bytes hp hr hne _ ih =>
    obtain ⟨ns, hcall⟩ := ih
    exact ⟨_ :: ns, by rw [readRecord_bytes hp hr hne, hcall]; rfl⟩
  | pause hp hr _ ih =>
    obtain ⟨ns, hcall⟩ := ih
    exact ⟨ns, by rw [readRecord_pause hp hr, hcall]⟩

theorem Polls.housed (h : Polls r w r' w') (hr : r.Housed) : r'.Housed := by
  induction h with
  | first => exact hr
  | bytes hp hread _ _ ih => exact ih (hr.take hp hread)
  | pause hp _ _ ih => exact ih (hr.poll hp)

theorem Polls.settings (h : Polls r w r' w') : r'.limit = r.limit ∧ r'.initial = r.initial := by
  induction h with
  | first => exact ⟨rfl, rfl⟩
  | bytes hp _ _ _ ih | pause hp _ _ ih =>
    obtain ⟨-, hl, hi, -⟩ := of_poll_bytes hp
    exact ⟨ih.1.trans hl, ih.2.trans hi⟩

theorem initial_behind (i : Nat) (r : LineReader) (w : Wire) :
    (behind i r w).1.initial = r.initial := by
  induction i with
  | zero => rfl
  | succ i ih => rw [behind_succ, ← ih, (call_reads i r w).keeps.2.1]

theorem readRecord_of_poll_failure {cause : LogError} (h : r.poll = .failure cause) (w : Wire) :
    r.readRecord w = ⟨some (.error cause), r, w, []⟩ :=
  (Reads.failure h).eq_readRecord

theorem readRecord_of_firstLine? {l rest : Bytes} (h : r.buffer.firstLine? = some (l, rest))
    (w : Wire) : (r.readRecord w).wire = w ∧ (r.readRecord w).reads = [] ∧
      (r.excess? l.length = none → (r.readRecord w).result = some (.ok ⟨l, true⟩) ∧
        (r.readRecord w).reader.buffer = rest) := by
  cases hl : r.excess? l.length with
  | none =>
    have hp : r.poll = .frame ⟨l, true⟩ { r with buffer := rest, capacity := rest.length } := by
      rw [LineReader.poll, h]
      dsimp only
      rw [hl]
    rw [(Reads.frame hp).eq_readRecord]
    exact ⟨rfl, rfl, fun _ => ⟨rfl, rfl⟩⟩
  | some cause =>
    have hp : r.poll = .failure cause := by
      rw [LineReader.poll, h]
      dsimp only
      rw [hl]
    rw [readRecord_of_poll_failure hp]
    exact ⟨rfl, rfl, fun hn => by cases hn⟩

structure Prepared (initial : Nat) (limit : Option Nat) (r : LineReader) (w : Wire) : Prop where
  room : ∀ room next, r.poll = .bytes room next →
    0 < room ∧ next.buffered + room = next.capacity ∧ newline ∉ next.buffer
  /-- If none come, the stream is at its end. -/
  ended : ∀ room next w', r.poll = .bytes room next → w.read room = (.bytes [], w') → w.AtEnd
  /-- A line in the buffer is settled without the stream, and returned if it keeps to the limit. -/
  line : ∀ l rest, r.buffer.firstLine? = some (l, rest) →
    (r.readRecord w).wire = w ∧ (r.readRecord w).reads = [] ∧
      ((∀ m ∈ limit, l.length ≤ m) → (r.readRecord w).result = some (.ok ⟨l, true⟩) ∧
        (r.readRecord w).reader.buffer = rest)
  /-- The capacity to grow to can be computed in words, and the room that is then to be added. -/
  word : 2 * r.capacity < UInt64.size ∧ max (2 * r.capacity) r.initial < UInt64.size ∧
    r.buffered ≤ max (2 * r.capacity) r.initial
  grown : ∀ next, r.grow = .ok next → next.buffer = r.buffer ∧ r.capacity ≤ next.capacity
  refused : ∀ cause, r.grow = .error cause ↔
    greatestCapacity < max (2 * r.capacity) r.initial ∧ cause = .exhausted .bufferTooLarge
  intact : ∀ cause, r.poll = .failure cause → r.readRecord w = ⟨some (.error cause), r, w, []⟩
  fits : r.buffered ≤ r.capacity
  /-- The limit bounds the capacity, before and after growing. -/
  bounded : ∀ m ∈ limit, r.capacity ≤ max (max initial 1) (2 * (m - 1)) ∧
    ∀ room next, r.poll = .bytes room next → next.capacity ≤ max (max initial 1) (2 * (m - 1))

theorem Housed.prepared (h : r.Housed) (hr : r.initial = max initial 1)
    (hi : initial < UInt64.size) (w : Wire) : Prepared initial r.limit r w := by
  have hfits := h.fits
  have haffordable := h.affordable
  have hpos := h.initial_pos
  have hgreatest : 2 * greatestCapacity < UInt64.size := by decide
  have hinitial : r.initial < UInt64.size := hr ▸ max_lt hi (by decide)
  have hroom : ∀ room next, r.poll = .bytes room next →
      0 < room ∧ next.buffered + room = next.capacity ∧ newline ∉ next.buffer := by
    intro room next hp
    obtain ⟨hn, -, rfl, ⟨hne, rfl⟩ | ⟨hfull, hg⟩⟩ := poll_eq_bytes hp
    · exact ⟨by omega, by omega, hn⟩
    · obtain ⟨-, rfl⟩ := grow_eq_ok_iff.mp hg
      change 0 < max (2 * r.capacity) r.initial - r.buffered ∧
        r.buffered + (max (2 * r.capacity) r.initial - r.buffered) =
          max (2 * r.capacity) r.initial ∧ newline ∉ r.buffer
      exact ⟨by omega, by omega, hn⟩
  exact
    { room := hroom
      ended := fun room next w' hp hr => Wire.atEnd_of_read (hroom room next hp).1 hr
      line := fun l rest hl => by
        simpa only [excess?_eq_none_iff] using readRecord_of_firstLine? hl w
      word := ⟨by omega, by omega, by omega⟩
      grown := by
        intro next hg
        obtain ⟨-, rfl⟩ := grow_eq_ok_iff.mp hg
        exact ⟨rfl, (Nat.le_mul_of_pos_left _ Nat.two_pos).trans (Nat.le_max_left _ _)⟩
      refused := fun cause => grow_eq_error_iff
      intact := fun cause hp => readRecord_of_poll_failure hp w
      fits := hfits
      bounded := by
        intro m hm
        rw [← hr]
        refine ⟨h.limited m hm, fun room next hp => ?_⟩
        obtain ⟨-, hl, hi, -⟩ := of_poll_bytes hp
        rw [← hi]
        exact (h.poll hp).limited m (hl ▸ hm) }

/-- However often a reader is called, whatever the stream does, each of its reads has room for a
byte, so that no bytes mean the end of the stream, and no line in the buffer, which is settled
without a read. The buffer is never too large to be doubled in a word; growing it is refused only
beyond what memory can give, and loses nothing. Under a limit the buffer is never larger than the
initial one or than twice the longest record without its newline. -/
theorem calls_have_room {initial : Nat} (hi : initial < UInt64.size) (limit : Option Nat) (w : Wire)
    (n : Nat) :
    let start := behind n (ofInitial initial limit) w
    ∀ r w', Polls start.1 start.2 r w' → Prepared initial limit r w' ∧
      ∃ ns, start.1.readRecord start.2 =
        { r.readRecord w' with reads := ns ++ (r.readRecord w').reads } := by
  intro start r w' hp
  refine ⟨?_, hp.readRecord⟩
  have hhoused : r.Housed := hp.housed (behind_housed initial limit w n)
  have hinitial : r.initial = max initial 1 := hp.settings.2.trans (initial_behind n _ w)
  obtain rfl : r.limit = limit := hp.settings.1.trans (limit_behind n _ w)
  exact hhoused.prepared hinitial hi w'

def broken : Wire where
  arrivals := [.chunk [97, 98], .failure (.kind .connectionReset), .chunk [99, 10, 100]]

/-- The buffer was full and has grown when the read failed, and stays within the limit. -/
theorem calls_have_room_broken :
    2 < UInt64.size ∧
      let start := behind 1 (ofInitial 2 (some 4)) broken
      start.1.buffer = [97, 98] ∧ start.1.capacity = 4 ∧ Polls start.1 start.2 start.1 start.2 ∧
        Prepared 2 (some 4) start.1 start.2 := by
  refine ⟨by decide, by decide, by decide, .first, ?_⟩
  exact (calls_have_room (by decide) (some 4) broken 1 _ _ .first).1

end LineReader

end CommandLog
