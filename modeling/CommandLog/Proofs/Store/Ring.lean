import Mathlib.Data.List.DropRight
import CommandLog.Store.Request

/-! # Rings and the records they hold

A ring holds a list of records if the slots from the head on carry them in order and every other
slot is empty. Appending and clearing keep such a list, and every operation that reads the ring
reads this list. After any requests the list consists of the newest records appended since the
last time the store was cleared, as many as the capacity allows.
-/

namespace CommandLog

namespace Record

@[simp] theorem totalLength_nil : totalLength [] = 0 := rfl

@[simp] theorem totalLength_cons (r : Record) (rs : List Record) :
    totalLength (r :: rs) = r.length + totalLength rs := rfl

@[simp] theorem totalLength_append (rs rs' : List Record) :
    totalLength (rs ++ rs') = totalLength rs + totalLength rs' := by
  induction rs with
  | nil => simp
  | cons r rs ih => simp only [List.cons_append, totalLength_cons, ih, Nat.add_assoc]

end Record

namespace Store

variable {s : Store} {r : Record} {rs : List Record}

/-- The ring carries the given records, oldest first, and nothing else. -/
structure Holds (s : Store) (rs : List Record) : Prop where
  head_lt : s.head < s.capacity
  count_eq : s.count = rs.length
  fits : rs.length ≤ s.capacity
  filled : ∀ i (h : i < rs.length), s.slots[s.slot i]? = some (some rs[i])
  vacant : ∀ i < s.capacity, (∀ j < rs.length, s.slot j ≠ i) → s.slots[i]? = some none
  size_eq : s.size = Record.totalLength rs

def Sound (s : Store) : Prop := ∃ rs, s.Holds rs

theorem Holds.capacity_pos (h : s.Holds rs) : 0 < s.capacity :=
  Nat.zero_lt_of_lt h.head_lt

theorem slot_eq (hh : s.head < s.capacity) {i : Nat} (hi : i ≤ s.capacity) :
    s.slot i = if s.head + i < s.capacity then s.head + i else s.head + i - s.capacity := by
  unfold slot
  split
  · exact Nat.mod_eq_of_lt ‹_›
  · rw [Nat.mod_eq_sub_mod (by omega), Nat.mod_eq_of_lt (by omega)]

theorem slot_lt (h : 0 < s.capacity) (i : Nat) : s.slot i < s.capacity :=
  Nat.mod_lt _ h

theorem slot_inj (hh : s.head < s.capacity) {i j : Nat} (hi : i < s.capacity)
    (hj : j < s.capacity) (he : s.slot i = s.slot j) : i = j := by
  rw [slot_eq hh hi.le, slot_eq hh hj.le] at he
  split at he <;> split at he <;> omega

theorem inSlot?_eq {i : Nat} {x : Option Record} (h : s.slots[i]? = some x) : s.inSlot? i = x := by
  simp [inSlot?, h]

@[simp] theorem capacity_empty (c : Nat) : (empty c).capacity = c := by
  simp [empty, capacity]

theorem empty_holds {c : Nat} (hc : 0 < c) : (empty c).Holds [] where
  head_lt := by simpa [empty, capacity] using hc
  count_eq := rfl
  fits := Nat.zero_le _
  filled i h := absurd h (Nat.not_lt_zero i)
  vacant i hi _ := by
    rw [capacity_empty] at hi
    simp [empty, hi]
  size_eq := rfl

@[simp] theorem capacity_push (s : Store) (r : Record) : (s.push r).capacity = s.capacity := by
  simp [push, capacity]

@[simp] theorem slot_push (s : Store) (r : Record) (i : Nat) : (s.push r).slot i = s.slot i := by
  simp [slot, push, capacity]

@[simp] theorem head_push (s : Store) (r : Record) : (s.push r).head = s.head := rfl

theorem slots_push (s : Store) (r : Record) (i : Nat) :
    (s.push r).slots[i]? =
      if s.slot s.count = i then
        (if s.slot s.count < s.capacity then some (some r) else none)
      else s.slots[i]? :=
  Array.getElem?_setIfInBounds

theorem Holds.push (h : s.Holds rs) (hl : rs.length < s.capacity) (r : Record) :
    (s.push r).Holds (rs ++ [r]) where
  head_lt := by simpa using h.head_lt
  count_eq := by simp [Store.push, h.count_eq]
  fits := by simpa using Nat.succ_le_of_lt hl
  filled i hi := by
    rw [slot_push, slots_push, h.count_eq]
    rw [List.length_append, List.length_singleton] at hi
    rcases Nat.lt_or_ge i rs.length with hlt | hge
    · have hne : s.slot rs.length ≠ s.slot i := fun he =>
        absurd (slot_inj h.head_lt hl (hlt.trans hl) he) hlt.ne'
      rw [if_neg hne, h.filled i hlt, List.getElem_append_left hlt]
    · obtain rfl : i = rs.length := by omega
      rw [if_pos rfl, if_pos (slot_lt h.capacity_pos _), List.getElem_concat_length rfl]
  vacant i hi hj := by
    have hlast : s.slot rs.length ≠ i := by simpa using hj rs.length (by simp)
    rw [slots_push, h.count_eq, if_neg hlast]
    refine h.vacant i (by simpa using hi) fun j hj' => ?_
    simpa using hj j (by simp; omega)
  size_eq := by simp [Store.push, h.size_eq]

@[simp] theorem capacity_dropOldest (s : Store) : s.dropOldest.capacity = s.capacity := by
  simp [dropOldest, capacity]

theorem slot_dropOldest (s : Store) (i : Nat) : s.dropOldest.slot i = s.slot (i + 1) := by
  simp only [slot, capacity_dropOldest]
  simp only [dropOldest, Nat.mod_add_mod, Nat.add_assoc, Nat.add_comm 1 i]

theorem slots_dropOldest (s : Store) (i : Nat) :
    s.dropOldest.slots[i]? =
      if s.head = i then (if s.head < s.capacity then some none else none)
      else s.slots[i]? :=
  Array.getElem?_setIfInBounds

theorem Holds.slot_zero (h : s.Holds rs) : s.slot 0 = s.head :=
  Nat.mod_eq_of_lt h.head_lt

theorem Holds.dropOldest (h : s.Holds (r :: rs)) : s.dropOldest.Holds rs := by
  have hfits : rs.length + 1 ≤ s.capacity := h.fits
  have hoff {i : Nat} (hi : i < rs.length) : s.head ≠ s.slot (i + 1) := fun he =>
    absurd (slot_inj h.head_lt h.capacity_pos (by omega) (h.slot_zero.trans he)) (by omega)
  have hold : s.inSlot? s.head = some r := inSlot?_eq (h.slot_zero ▸ h.filled 0 (by simp))
  exact
    { head_lt := by rw [capacity_dropOldest]; exact Nat.mod_lt _ h.capacity_pos
      count_eq := by simp [Store.dropOldest, h.count_eq]
      fits := by rw [capacity_dropOldest]; omega
      filled := fun i hi => by
        rw [slot_dropOldest, slots_dropOldest, if_neg (hoff hi)]
        exact h.filled (i + 1) (by simpa using hi)
      vacant := fun i hi hj => by
        rw [capacity_dropOldest] at hi
        rw [slots_dropOldest]
        split
        · rw [if_pos h.head_lt]
        · -- a slot that is neither the freed one nor in use was empty before
          refine h.vacant i hi fun j hj' => ?_
          cases j with
          | zero => rwa [h.slot_zero]
          | succ j => simpa [slot_dropOldest] using hj j (by simpa using hj')
      size_eq := by simp [Store.dropOldest, hold, h.size_eq] }

theorem Holds.isFull_iff (h : s.Holds rs) : s.isFull = true ↔ rs.length = s.capacity := by
  simp [isFull, h.count_eq]

@[simp] theorem capacity_append (s : Store) (r : Record) :
    (s.append r).1.capacity = s.capacity := by
  unfold append; split <;> simp

@[simp] theorem capacity_clear (s : Store) : s.clear.capacity = s.capacity :=
  capacity_empty _

theorem append_snd (s : Store) (r : Record) : (s.append r).2 = s.isFull := by
  unfold append; split <;> simp_all

/-- An append keeps the newest records, as many as there are slots. -/
theorem Holds.append (h : s.Holds rs) (r : Record) :
    (s.append r).1.Holds ((rs ++ [r]).rtake s.capacity) := by
  unfold Store.append
  split
  case isTrue hf =>
    have hl : rs.length = s.capacity := h.isFull_iff.mp hf
    cases rs with
    | nil => exact absurd hl h.capacity_pos.ne
    | cons r₀ rs =>
      have hd : ((r₀ :: rs) ++ [r]).rtake s.capacity = rs ++ [r] := by
        simp [List.rtake, ← hl]
      rw [hd]
      exact h.dropOldest.push (by simp [← hl]) r
  case isFalse hf =>
    have hl : rs.length < s.capacity :=
      lt_of_le_of_ne h.fits fun he => hf (h.isFull_iff.mpr he)
    have hk : (rs ++ [r]).rtake s.capacity = rs ++ [r] := by
      simp [List.rtake, Nat.sub_eq_zero_of_le (Nat.succ_le_of_lt hl)]
    rw [hk]
    exact h.push hl r

theorem Holds.clear (h : s.Holds rs) : s.clear.Holds [] :=
  empty_holds h.capacity_pos

theorem Sound.append (h : s.Sound) (r : Record) : (s.append r).1.Sound :=
  let ⟨_, h⟩ := h; ⟨_, h.append r⟩

theorem Sound.clear (h : s.Sound) : s.clear.Sound :=
  let ⟨_, h⟩ := h; ⟨_, h.clear⟩

theorem Holds.get? (h : s.Holds rs) (i : Nat) : s.get? i = rs[i]? := by
  rw [Store.get?, h.count_eq]
  split
  · rw [List.getElem?_eq_none ‹_›]
  · have hi : i < rs.length := by omega
    rw [inSlot?_eq (h.filled i hi), List.getElem?_eq_getElem hi]

theorem filterMap_getElem?_range (rs : List Record) :
    (List.range rs.length).filterMap (rs[·]?) = rs := by
  induction rs with
  | nil => rfl
  | cons r rs ih =>
    simpa [List.range_succ_eq_map, List.filterMap_map, Function.comp_def] using ih

theorem Holds.toList (h : s.Holds rs) : s.toList = rs := by
  have hs : ∀ i ∈ List.range rs.length, s.inSlot? (s.slot i) = rs[i]? := by
    intro i hi
    have hi : i < rs.length := List.mem_range.mp hi
    rw [inSlot?_eq (h.filled i hi), List.getElem?_eq_getElem hi]
  rw [Store.toList, h.count_eq, List.filterMap_congr hs, filterMap_getElem?_range]

def performAll (s : Store) (qs : List Request) : Store :=
  qs.foldl (fun s q => (s.perform q).1) s

/-- The records appended by some requests since the last of them that clears the store. -/
def sinceClear (qs : List Request) : List Record :=
  qs.foldl (fun rs q => match q with
    | .append r => rs ++ [r]
    | .clear => []
    | _ => rs) []

@[simp] theorem performAll_concat (s : Store) (qs : List Request) (q : Request) :
    s.performAll (qs ++ [q]) = ((s.performAll qs).perform q).1 := by
  simp [performAll]

theorem capacity_perform (s : Store) (q : Request) : (s.perform q).1.capacity = s.capacity := by
  cases q <;> simp [perform]

theorem capacity_performAll (s : Store) (qs : List Request) :
    (s.performAll qs).capacity = s.capacity := by
  induction qs using List.reverseRecOn with
  | nil => rfl
  | append_singleton qs q ih => rw [performAll_concat, capacity_perform, ih]

/-- What was not among the newest records before an append is not among them afterwards. -/
theorem rtake_concat_rtake {α : Type*} (xs : List α) (x : α) (c : Nat) :
    (xs.rtake c ++ [x]).rtake c = (xs ++ [x]).rtake c := by
  rcases Nat.le_total xs.length c with hle | hle
  · rw [List.rtake, List.rtake, Nat.sub_eq_zero_of_le hle, List.drop_zero, List.rtake]
  · simp only [List.rtake, List.length_append, List.length_drop, List.length_singleton]
    rw [← List.drop_append_of_le_length (Nat.sub_le _ _), List.drop_drop]
    congr 1
    omega

theorem performAll_holds {c : Nat} (hc : 0 < c) (qs : List Request) :
    ((empty c).performAll qs).Holds ((sinceClear qs).rtake c) := by
  induction qs using List.reverseRecOn with
  | nil => simpa [performAll, sinceClear, List.rtake] using empty_holds hc
  | append_singleton qs q ih =>
    have hcap : ((empty c).performAll qs).capacity = c := by simp [capacity_performAll]
    rw [performAll_concat]
    cases q with
    | append r =>
      have h := ih.append r
      rw [hcap, rtake_concat_rtake] at h
      simpa [perform, sinceClear] using h
    | clear =>
      have h := ih.clear
      simpa [perform, sinceClear] using h
    | _ => simpa [perform, sinceClear] using ih

/-- A store that begins empty is the list of the newest records appended since it was last
cleared, as many as its capacity, to every operation that reads it; the slots not in use are
empty, and an append tells whether the list had reached the capacity. -/
theorem newest_records_held {c : Nat} (hc : 0 < c) :
    ∃ s₀, ofCapacity c = .ok s₀ ∧ ∀ qs : List Request,
      let s := s₀.performAll qs
      let rs := (sinceClear qs).rtake c
      s.toList = rs ∧ (∀ i, s.get? i = rs[i]?) ∧ s.count = rs.length ∧
        s.size = Record.totalLength rs ∧ (s.isEmpty = true ↔ rs.length = 0) ∧
        (s.isFull = true ↔ rs.length = c) ∧ s.capacity = c ∧
        (∀ i < c, (∀ j < rs.length, (s.head + j) % c ≠ i) → s.slots[i]? = some none) ∧
        ∀ r, ((s.append r).2 = true ↔ rs.length = c) := by
  refine ⟨empty c, if_neg hc.ne', fun qs => ?_⟩
  have hcap : ((empty c).performAll qs).capacity = c := by simp [capacity_performAll]
  have h := performAll_holds hc qs
  refine ⟨h.toList, h.get?, h.count_eq, h.size_eq, ?_, ?_, hcap, ?_, fun r => ?_⟩
  · simp [isEmpty, h.count_eq]
  · rw [h.isFull_iff, hcap]
  · intro i hi hj
    refine h.vacant i (by rwa [hcap]) fun j hlt => ?_
    rw [slot, hcap]
    exact hj j hlt
  · rw [append_snd, h.isFull_iff, hcap]

/-- Two slots keep the last two of three records, one of them without a byte. -/
theorem newest_two_held :
    0 < 2 ∧ ∃ s₀, ofCapacity 2 = .ok s₀ ∧
      (s₀.performAll [.append ⟨[97]⟩, .clear, .append ⟨[98, 10]⟩, .append ⟨[]⟩,
        .append ⟨[99]⟩]).toList = [⟨[]⟩, ⟨[99]⟩] := by
  obtain ⟨s₀, h₀, h⟩ := newest_records_held (Nat.zero_lt_succ 1)
  exact ⟨Nat.zero_lt_succ 1, s₀, h₀, (h _).1⟩

end Store

end CommandLog
