import Mathlib.Data.List.TakeWhile
import CommandLog.Wire

/-! # First lines and what a wire delivers

The first line of a byte string is settled as soon as its newline is there. A read takes bytes off
the front of those that a wire is still to deliver and leaves its sending side alone; a wire that
delivers a byte string in pieces, with pauses, comes to its end after finitely many reads. A peer
that accepts everything takes a part of each offer.
-/

namespace CommandLog

namespace Bytes

variable {s t l rest : Bytes}

def opening (s : Bytes) : Bytes :=
  s.takeWhile (· != newline)

theorem firstLine?_eq_none_iff : s.firstLine? = none ↔ newline ∉ s := by
  induction s with
  | nil => simp [firstLine?]
  | cons b s ih =>
    by_cases hb : b = newline
    · simp [firstLine?, hb]
    · simp [firstLine?, hb, ih, Ne.symm hb]

theorem firstLine?_eq_some_iff :
    s.firstLine? = some (l, rest) ↔
      ∃ body, newline ∉ body ∧ l = body ++ [newline] ∧ s = l ++ rest := by
  induction s generalizing l with
  | nil =>
    simp only [firstLine?, reduceCtorEq, false_iff]
    rintro ⟨body, -, rfl, he⟩
    simp at he
  | cons b s ih =>
    by_cases hb : b = newline
    · subst hb
      simp only [firstLine?, if_true, Option.some.injEq, Prod.mk.injEq]
      constructor
      · rintro ⟨rfl, rfl⟩
        exact ⟨[], by simp, by simp, by simp⟩
      · rintro ⟨body, hn, rfl, he⟩
        cases body with
        | nil => simpa using he
        | cons b body =>
          obtain ⟨rfl, -⟩ := List.cons.inj he
          exact absurd (List.mem_cons_self) hn
    · simp only [firstLine?, hb, if_false, Option.map_eq_some_iff, Prod.mk.injEq, Prod.exists]
      constructor
      · rintro ⟨l', _, h, rfl, rfl⟩
        obtain ⟨body, hn, rfl, rfl⟩ := ih.mp h
        exact ⟨b :: body, by simp [hn, Ne.symm hb], rfl, rfl⟩
      · rintro ⟨body, hn, rfl, he⟩
        cases body with
        | nil => exact absurd (List.cons.inj he).1 hb
        | cons b' body =>
          obtain ⟨rfl, rfl⟩ := List.cons.inj he
          exact ⟨_, rest, ih.mpr ⟨body, fun h => hn (List.mem_cons_of_mem _ h), rfl, rfl⟩, rfl, rfl⟩

theorem firstLine?_append (h : s.firstLine? = some (l, rest)) (t : Bytes) :
    firstLine? (s ++ t) = some (l, rest ++ t) := by
  obtain ⟨body, hn, rfl, rfl⟩ := firstLine?_eq_some_iff.mp h
  exact firstLine?_eq_some_iff.mpr ⟨body, hn, rfl, by simp⟩

theorem opening_append (h : newline ∉ s) (t : Bytes) : opening (s ++ t) = s ++ opening t := by
  refine List.takeWhile_append_of_pos fun b hb => ?_
  simp only [bne_iff_ne, ne_eq]
  rintro rfl
  exact h hb

theorem opening_eq_self (h : newline ∉ s) : opening s = s := by
  simpa [opening] using opening_append h []

theorem length_of_firstLine? (h : s.firstLine? = some (l, rest)) :
    l.length = (opening s).length + 1 := by
  obtain ⟨body, hn, rfl, rfl⟩ := firstLine?_eq_some_iff.mp h
  rw [List.append_assoc, opening_append hn]
  simp [opening]

end Bytes

def Arrival.bytes : Arrival → Bytes
  | chunk bs => bs
  | _ => []

namespace Wire

variable {w w' : Wire} {s : Bytes} {room : Nat}

/-- The scripted bytes that have not been read. -/
def awaited (w : Wire) : Bytes :=
  w.arrivals.flatMap Arrival.bytes

def Reading.got : Reading → Bytes
  | bytes bs => bs
  | _ => []

theorem read_snd (w : Wire) (room : Nat) :
    (w.read room).2 = { w with arrivals := (w.read room).2.arrivals } := by
  unfold read
  split
  · split <;> rfl
  all_goals rfl

theorem read_awaited (w : Wire) (room : Nat) :
    (w.read room).1.got ++ (w.read room).2.awaited = w.awaited := by
  unfold read
  split
  next bs rest ha =>
    simp only [awaited, ha, List.flatMap_cons, Arrival.bytes]
    split
    · rfl
    · simp only [Reading.got, List.flatMap_cons, Arrival.bytes, ← List.append_assoc,
        List.take_append_drop]
  next ha => simp [awaited, ha, Reading.got, Arrival.bytes]
  next ha => simp [awaited, ha, Reading.got, Arrival.bytes]
  next ha => split <;> simp [Reading.got]

inductive Written (w : Wire) (bs : Bytes) : Writing × Wire → Prop where
  | taken {n : Nat} {intake : Intake} :
      Written w bs (.taken n, { w with sent := w.sent ++ bs.take n, intake := intake })
  | failure {cause : IoError} : Written w bs (.failure cause, w)
  | wait : Written w bs (.wait, w)

theorem written (w : Wire) (bs : Bytes) : w.Written bs (w.write bs) := by
  unfold write
  split
  · split
    · exact .wait
    · simpa using @Written.taken w bs 0 w.intake
    · exact .failure
  · exact .taken

/-- How many more reads a wire can answer without being at its end. -/
def ahead (w : Wire) : Nat :=
  w.arrivals.length + w.unread

/-- The wire delivers a byte string in pieces, with any pauses, and then ends. -/
structure Delivers (w : Wire) (s : Bytes) : Prop where
  whole : w.awaited = s
  cut : ∀ a ∈ w.arrivals, a = .pause ∨ ∃ bs, bs ≠ [] ∧ a = .chunk bs
  ends : w.ends = true

inductive Delivers.Read (w : Wire) (s : Bytes) (room : Nat) : Prop where
  | bytes (bs rest : Bytes) (w' : Wire) : w.read room = (.bytes bs, w') → bs ≠ [] →
      bs.length ≤ room → s = bs ++ rest → w'.Delivers rest → w'.ahead < w.ahead → Read w s room
  | pause (w' : Wire) : w.read room = (.pause, w') → w'.Delivers s → w'.ahead < w.ahead →
      Read w s room
  | ended : w.read room = (.bytes [], w) → s = [] → Read w s room

theorem Delivers.read (h : w.Delivers s) (hr : 0 < room) : Delivers.Read w s room := by
  obtain ⟨hw, hc, he⟩ := h
  match ha : w.arrivals with
  | [] =>
    refine .ended (by simp [Wire.read, ha, he]) ?_
    simpa [awaited, ha] using hw.symm
  | .pause :: rest =>
    have hc' : ∀ a ∈ rest, _ := fun a hm => hc a (ha ▸ List.mem_cons_of_mem _ hm)
    refine .pause { w with arrivals := rest } (by simp [Wire.read, ha]) ⟨?_, hc', he⟩ ?_
    · simpa [awaited, ha, Arrival.bytes] using hw
    · simp [ahead, unread, ha, Arrival.length]
  | .failure _ :: rest => simp [ha] at hc
  | .chunk bs :: rest =>
    have hc' : ∀ a ∈ rest, _ := fun a hm => hc a (ha ▸ List.mem_cons_of_mem _ hm)
    have hne : bs ≠ [] := by simpa [ha] using hc (.chunk bs) (by simp [ha])
    simp only [awaited, ha, List.flatMap_cons, Arrival.bytes] at hw
    by_cases hl : bs.length ≤ room
    · refine .bytes bs _ { w with arrivals := rest } (by simp [Wire.read, ha, hl]) hne hl hw.symm
        ⟨rfl, hc', he⟩ ?_
      simp only [ahead, unread, ha, List.length_cons, List.foldr_cons, Arrival.length]
      omega
    · refine .bytes (bs.take room) _ { w with arrivals := .chunk (bs.drop room) :: rest }
        (by simp [Wire.read, ha, hl]) (by simp [hne]; omega)
        (List.length_take_le _ _) ?_ ⟨rfl, ?_, he⟩ ?_
      · simp only [← hw, awaited, List.flatMap_cons, Arrival.bytes, ← List.append_assoc,
          List.take_append_drop]
      · intro a hm
        rcases List.mem_cons.mp hm with rfl | hm
        · exact .inr ⟨_, by simp; omega, rfl⟩
        · exact hc' a hm
      · simp only [ahead, unread, ha, List.length_cons, List.foldr_cons, Arrival.length,
          List.length_drop]
        omega

/-- The peer takes everything, in pieces of any sizes but zero. -/
structure Accepts (w : Wire) : Prop where
  limit : w.intake.limit = none
  pieces : ∀ n ∈ w.intake.pieces, 0 < n
  chunk : ∀ n ∈ w.intake.chunk, 0 < n
  flush : w.flushFailure = none

theorem Accepts.write {bs : Bytes} (h : w.Accepts) (hne : bs ≠ []) :
    ∃ n intake, 0 < n ∧
      w.write bs = (.taken n, { w with sent := w.sent ++ bs.take n, intake := intake }) ∧
      Accepts { w with sent := w.sent ++ bs.take n, intake := intake } := by
  have hpos : 0 < bs.length := List.length_pos_iff.mpr hne
  refine ⟨w.allowance bs.length, { w.intake with pieces := w.intake.pieces.tail }, ?_, ?_, ?_⟩
  · simp only [allowance, h.limit, Option.elim_none]
    cases hp : w.intake.pieces.head? with
    | some n =>
      have hn : 0 < n := h.pieces n (List.mem_of_mem_head? hp)
      simp only [Option.some_or, Option.elim_some]
      omega
    | none =>
      cases hc : w.intake.chunk with
      | some n =>
        have hn : 0 < n := h.chunk n hc
        simp only [Option.none_or, Option.elim_some]
        omega
      | none => exact hpos
  · simp [Wire.write, isExhausted, h.limit]
  · exact ⟨h.limit, fun n hn => h.pieces n (List.mem_of_mem_tail hn), h.chunk, h.flush⟩

end Wire

end CommandLog
