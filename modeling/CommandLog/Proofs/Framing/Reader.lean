import CommandLog.LineReader
import CommandLog.Proofs.Framing.Wire

/-! # The first frame of a stream

What a reader returns first depends on the bytes of the stream up to their first newline and on
the limit, not on the pieces in which they arrive: the first line if it keeps to the limit, the
whole of a stream without a newline if a newline more would, and a failure otherwise.
-/

namespace CommandLog.LineReader

open Bytes

variable {r : LineReader} {w : Wire} {s : Bytes}

/-- The buffer holds what it keeps, and it grows to at least one byte. -/
structure Sound (r : LineReader) : Prop where
  fits : r.buffered ≤ r.capacity
  initial_pos : 0 < r.initial

theorem ofInitial_sound (initial : Nat) (limit : Option Nat) : (ofInitial initial limit).Sound where
  fits := le_rfl
  initial_pos := Nat.lt_of_lt_of_le Nat.zero_lt_one (Nat.le_max_right _ _)

inductive Polled (r : LineReader) : Demand → Prop where
  | line {l rest : Bytes} : r.buffer.firstLine? = some (l, rest) → r.excess? l.length = none →
      Polled r (.frame ⟨l, true⟩ { r with buffer := rest, capacity := rest.length })
  | overlong {l rest : Bytes} {cause : LogError} : r.buffer.firstLine? = some (l, rest) →
      r.excess? l.length = some cause → Polled r (.failure cause)
  | overfull {cause : LogError} : newline ∉ r.buffer → r.excess? (r.buffered + 1) = some cause →
      Polled r (.failure cause)
  | unaffordable : newline ∉ r.buffer → r.excess? (r.buffered + 1) = none →
      r.buffered = r.capacity → greatestCapacity < max (2 * r.capacity) r.initial →
      Polled r (.failure (.exhausted .bufferTooLarge))
  | bytes {capacity : Nat} : newline ∉ r.buffer → r.excess? (r.buffered + 1) = none →
      (r.Sound → r.buffered < capacity) →
      Polled r (.bytes (capacity - r.buffered) { r with capacity := capacity })

theorem polled (r : LineReader) : r.Polled r.poll := by
  unfold poll
  split
  case h_1 l rest h =>
    split
    case h_1 cause hl => exact .overlong h hl
    case h_2 hl => exact .line h hl
  case h_2 h =>
    have hn : newline ∉ r.buffer := firstLine?_eq_none_iff.mp h
    split
    case h_1 cause hl => exact .overfull hn hl
    case h_2 hl =>
      split
      case isTrue hc =>
        unfold grow
        dsimp only
        split
        case h_1 next hg =>
          split at hg
          · cases hg
          · obtain rfl := Except.ok.inj hg
            refine .bytes hn hl fun hr => ?_
            have hi := hr.initial_pos
            change r.buffered < max (2 * r.capacity) r.initial
            omega
        case h_2 cause hg =>
          split at hg
          · obtain rfl := Except.error.inj hg
            exact .unaffordable hn hl hc ‹_›
          · cases hg
      case isFalse hc => exact .bytes hn hl fun hr => lt_of_le_of_ne hr.fits hc

/-- No buffer is refused that the reader asks for before it has a line. -/
def Affords (r : LineReader) (s : Bytes) : Prop :=
  ∀ n ≤ (opening s).length, r.excess? (n + 1) = none →
    max (2 * n) r.initial ≤ greatestCapacity

theorem excess?_eq_none_iff {n : Nat} : r.excess? n = none ↔ ∀ limit ∈ r.limit, n ≤ limit := by
  unfold excess?
  cases r.limit <;> simp

theorem exists_of_excess? {n : Nat} {cause : LogError} (h : r.excess? n = some cause) :
    ∃ limit, r.limit = some limit ∧ limit < n ∧ cause = .exhausted (.recordTooLong n limit) := by
  unfold excess? at h
  split at h
  · split at h
    · exact ⟨_, ‹_›, ‹_›, (Option.some.inj h).symm⟩
    · cases h
  · cases h

/-- The first frame of a byte string under a limit, or the failure in its place. -/
inductive First (limit : Option Nat) (s : Bytes) : Except LogError Frame → Prop where
  | line {l rest : Bytes} : s.firstLine? = some (l, rest) → (∀ m ∈ limit, l.length ≤ m) →
      First limit s (.ok ⟨l, true⟩)
  | whole : newline ∉ s → (∀ m ∈ limit, s.length + 1 ≤ m) → First limit s (.ok ⟨s, false⟩)
  | tooLong {length m : Nat} : limit = some m → m < (opening s).length + 1 →
      First limit s (.error (.exhausted (.recordTooLong length m)))

section First

variable {limit : Option Nat} {l rest : Bytes} {res : Except LogError Frame}

theorem First.eq_line (hf : First limit s res) (h : s.firstLine? = some (l, rest))
    (hl : ∀ m ∈ limit, l.length ≤ m) : res = .ok ⟨l, true⟩ := by
  cases hf with
  | line h' =>
    obtain ⟨rfl, -⟩ := Prod.mk.inj (Option.some.inj (h'.symm.trans h))
    rfl
  | whole hn =>
    rw [firstLine?_eq_none_iff.mpr hn] at h
    cases h
  | tooLong hm hlt =>
    rw [← length_of_firstLine? h] at hlt
    exact absurd (hl _ hm) (Nat.not_le_of_lt hlt)

theorem First.eq_whole (hf : First limit s res) (h : newline ∉ s)
    (hl : ∀ m ∈ limit, s.length + 1 ≤ m) : res = .ok ⟨s, false⟩ := by
  cases hf with
  | line h' =>
    rw [firstLine?_eq_none_iff.mpr h] at h'
    cases h'
  | whole => rfl
  | tooLong hm hlt =>
    rw [opening_eq_self h] at hlt
    exact absurd (hl _ hm) (Nat.not_le_of_lt hlt)

theorem First.eq_tooLong {m : Nat} (hf : First limit s res) (hm : limit = some m)
    (hlt : m < (opening s).length + 1) :
    ∃ length, res = .error (.exhausted (.recordTooLong length m)) := by
  cases hf with
  | line h hl =>
    rw [← length_of_firstLine? h] at hlt
    exact absurd (hl m hm) (Nat.not_le_of_lt hlt)
  | whole hn hl =>
    rw [opening_eq_self hn] at hlt
    exact absurd (hl m hm) (Nat.not_le_of_lt hlt)
  | @tooLong length m' hm' =>
    obtain rfl := Option.some.inj (hm.symm.trans hm')
    exact ⟨length, rfl⟩

end First

/-- The reader returns the first frame of a stream, however the stream is cut. -/
theorem readWithin_first {n : Nat} (hn : w.ahead < n) (hr : r.Sound) (hw : w.Delivers s)
    (ha : r.Affords (r.buffer ++ s)) :
    ∃ res, (readWithin n r w).result = some res ∧ First r.limit (r.buffer ++ s) res := by
  -- on the fuel: every read takes an arrival or a byte, so that less lies ahead of the next
  induction n generalizing r w s with
  | zero => exact absurd hn (Nat.not_lt_zero _)
  | succ n ih =>
    rw [readWithin]
    generalize hp : r.poll = d
    cases hp ▸ r.polled with
    | line h hl => exact ⟨_, rfl, .line (firstLine?_append h s) (excess?_eq_none_iff.mp hl)⟩
    | overlong h hl =>
      obtain ⟨limit, hlim, hlt, rfl⟩ := exists_of_excess? hl
      have hlen := length_of_firstLine? (firstLine?_append h s)
      exact ⟨_, rfl, .tooLong hlim (hlen ▸ hlt)⟩
    | overfull h hl =>
      obtain ⟨limit, hlim, hlt, rfl⟩ := exists_of_excess? hl
      refine ⟨_, rfl, .tooLong hlim ?_⟩
      rw [opening_append h, List.length_append]
      exact Nat.lt_of_lt_of_le hlt (by simp [buffered])
    | unaffordable h hl hc hg =>
      have hle := ha r.buffered (by simp [opening_append h, buffered]) hl
      omega
    | @bytes capacity h hl hc =>
      have hlt : r.buffered < capacity := hc hr
      dsimp only
      cases hw.read (Nat.sub_pos_of_lt hlt) with
      | bytes bs rest w' he hne hle hs hw' hlt' =>
        obtain ⟨b, bs, rfl⟩ := List.exists_cons_of_ne_nil hne
        subst hs
        have hs' : Sound (take { r with capacity := capacity } (b :: bs)) :=
          ⟨by simp only [buffered, take, List.length_append] at *; omega, hr.initial_pos⟩
        rw [← List.append_assoc] at ha ⊢
        obtain ⟨res, hres, hf⟩ := ih (by omega) hs' hw' ha
        rw [he]
        exact ⟨res, hres, hf⟩
      | pause w' he hw' hlt' =>
        have hs' : Sound { r with capacity := capacity } := ⟨hlt.le, hr.initial_pos⟩
        rw [he]
        exact ih (by omega) hs' hw' ha
      | ended he hs =>
        rw [he]
        subst hs
        rw [List.append_nil]
        exact ⟨_, rfl, .whole h (excess?_eq_none_iff.mp hl)⟩

end CommandLog.LineReader
