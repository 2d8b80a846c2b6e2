import CommandLog.Proofs.Store.Ring

/-! # The content of a store

The two ways to name a byte agree: an offset in the content lies in the record that a walk over
the lengths finds, and resolving a place adds up the lengths before it. Every read is therefore a
piece of the concatenated records.
-/

namespace CommandLog

namespace Record

def joined (rs : List Record) : Bytes :=
  (rs.map bytes).flatten

@[simp] theorem joined_nil : joined [] = [] := rfl

@[simp] theorem joined_cons (r : Record) (rs : List Record) :
    joined (r :: rs) = r.bytes ++ joined rs := rfl

@[simp] theorem joined_append (rs rs' : List Record) :
    joined (rs ++ rs') = joined rs ++ joined rs' := by
  simp [joined]

@[simp] theorem length_joined (rs : List Record) : (joined rs).length = totalLength rs := by
  induction rs with
  | nil => rfl
  | cons r rs ih => simp [ih, length]

end Record

open Record

namespace Store

variable {s : Store} {rs : List Record}

theorem Holds.content (h : s.Holds rs) : s.content = joined rs := by
  rw [Store.content, h.toList, joined]

theorem Holds.length_content (h : s.Holds rs) : s.content.length = s.size := by
  rw [h.content, length_joined, h.size_eq]

theorem findFrom?_eq_none_iff (rs : List Record) (index offset : Nat) :
    findFrom? rs index offset = none ↔ totalLength rs ≤ offset := by
  induction rs generalizing index offset with
  | nil => simp [findFrom?]
  | cons r rs ih =>
    rw [findFrom?, totalLength_cons]
    split
    · simp only [reduceCtorEq, false_iff]; omega
    · rw [ih]; omega

theorem exists_of_findFrom? {rs : List Record} {index offset : Nat} {p : Place}
    (h : findFrom? rs index offset = some p) :
    ∃ k r, rs[k]? = some r ∧ p.index = index + k ∧ p.offset < r.length ∧
      offset = totalLength (rs.take k) + p.offset := by
  induction rs generalizing index offset with
  | nil => cases h
  | cons r rs ih =>
    rw [findFrom?] at h
    split at h
    · obtain rfl := Option.some.inj h
      exact ⟨0, r, rfl, rfl, ‹_›, by simp⟩
    · obtain ⟨k, r', hk, hi, ho, he⟩ := ih h
      refine ⟨k + 1, r', hk, by omega, ho, ?_⟩
      rw [List.take_succ_cons, totalLength_cons]
      omega

theorem drop_joined {rs : List Record} {k : Nat} (offset : Nat) :
    (joined rs).drop (totalLength (rs.take k) + offset) = (joined (rs.drop k)).drop offset := by
  conv_lhs => rw [← List.take_append_drop k rs, joined_append]
  rw [← length_joined, List.drop_append]
  simp

theorem gather_eq (r : Record) (rs : List Record) {skipped : Nat} (hs : skipped ≤ r.length)
    (wanted : Nat) :
    gather (r :: rs) skipped wanted = ((joined (r :: rs)).drop skipped).take wanted := by
  induction rs generalizing r skipped wanted with
  | nil =>
    rw [gather]
    split
    · simp_all
    · simp [gather]
  | cons r' rs ih =>
    rw [gather]
    split
    · simp_all
    · dsimp only
      rw [ih r' (Nat.zero_le _), joined_cons r, List.drop_append_of_le_length hs, List.drop_zero,
        List.take_append, List.length_take, List.length_drop]
      congr 2
      omega

theorem Holds.exists_of_find? (h : s.Holds rs) {offset : Nat} {p : Place}
    (hf : s.find? offset = some p) :
    ∃ first later, s.get? p.index = some first ∧ p.offset < first.length ∧
      s.toList.drop p.index = first :: later ∧
      s.content.drop offset = (joined (first :: later)).drop p.offset := by
  rw [find?, h.toList] at hf
  obtain ⟨k, first, hk, hi, ho, rfl⟩ := exists_of_findFrom? hf
  obtain rfl : p.index = k := by omega
  have hrest : rs.drop p.index = first :: rs.drop (p.index + 1) := by
    obtain ⟨hlt, rfl⟩ := List.getElem?_eq_some_iff.mp hk
    exact List.drop_eq_getElem_cons hlt
  refine ⟨first, rs.drop (p.index + 1), (h.get? _).trans hk, ho, by rw [h.toList, hrest], ?_⟩
  rw [h.content, drop_joined, hrest]

/-- Cut from the first record alone or copied from it and the later ones, a piece of the content
is the same. -/
theorem piece_eq {first : Record} {skipped : Nat} (hs : skipped ≤ first.length)
    (later : List Record) (wanted : Nat) :
    (wanted ≤ first.length - skipped → (first.bytes.drop skipped).take wanted =
        ((joined (first :: later)).drop skipped).take wanted) ∧
      gather (first :: later) skipped wanted =
        ((joined (first :: later)).drop skipped).take wanted := by
  refine ⟨fun hw => ?_, gather_eq first later hs wanted⟩
  rw [joined_cons, List.drop_append_of_le_length hs, List.take_append_of_le_length]
  simpa [Record.length] using hw

theorem Holds.take_min (h : s.Holds rs) (offset limit : Nat) :
    (s.content.drop offset).take (min (s.size - offset) limit) =
      (s.content.drop offset).take limit := by
  rw [List.take_eq_take_min (i := limit), List.length_drop, h.length_content, Nat.min_comm limit]

theorem Sound.readAt (h : s.Sound) (offset limit : Nat) :
    s.readAt offset limit = (s.content.drop offset).take limit := by
  obtain ⟨rs, h⟩ := h
  rw [← h.take_min, Store.readAt]
  split
  case h_1 hf =>
    rw [find?, h.toList, findFrom?_eq_none_iff, ← h.size_eq] at hf
    simp [Nat.sub_eq_zero_of_le hf]
  case h_2 start hf =>
    obtain ⟨first, later, hget, ho, hrest, hcontent⟩ := h.exists_of_find? hf
    obtain ⟨hcut, hcopy⟩ := piece_eq ho.le later (min (s.size - offset) limit)
    rw [hget, hcontent, hrest]
    dsimp only
    split
    case isTrue hw => exact hcut hw
    case isFalse => exact hcopy

theorem Sound.readFrom (h : s.Sound) (offset : Nat) :
    s.readFrom offset = s.content.drop offset := by
  obtain ⟨rs, hs⟩ := h
  rw [Store.readFrom, Sound.readAt ⟨rs, hs⟩, List.take_of_length_le]
  rw [List.length_drop, hs.length_content]
  exact Nat.sub_le _ _

theorem Holds.resolve (h : s.Holds rs) (index offset : Nat) :
    s.resolve index offset =
      if rs[index]?.any (offset < ·.length) then
        .ok (totalLength (rs.take index) + offset)
      else .error (.outOfRange index offset) := by
  rw [Store.resolve, h.get?, sizeBefore, h.toList]
  cases rs[index]? with
  | none => rfl
  | some r => simp

theorem resolve_eq_error {index offset : Nat} {cause : LogError}
    (h : s.resolve index offset = .error cause) : cause = .outOfRange index offset := by
  unfold Store.resolve at h
  split at h
  · split at h
    · cases h
    · exact (Except.error.inj h).symm
  · exact (Except.error.inj h).symm

/-- In every store that appends and clearings lead to, a read is a piece of the concatenated
records, and both ways to obtain it, from one record and from several, give this piece. -/
theorem reads_are_pieces {c : Nat} (hc : 0 < c) :
    ∃ s₀, ofCapacity c = .ok s₀ ∧ ∀ (qs : List Request) (offset limit : Nat),
      let s := s₀.performAll qs
      let rest := (s.toList.map Record.bytes).flatten.drop offset
      s.readAt offset limit = rest.take limit ∧
        (s.size ≤ offset → s.readAt offset limit = []) ∧
        s.readFrom offset = rest ∧
        (s.size ≤ limit → s.readFrom offset = s.readAt offset limit) ∧
        (offset < s.size → ∃ p first, s.find? offset = some p ∧ s.get? p.index = some first ∧
          let wanted := min (s.size - offset) limit
          (wanted ≤ first.length - p.offset →
            (first.bytes.drop p.offset).take wanted = rest.take limit) ∧
          gather (s.toList.drop p.index) p.offset wanted = rest.take limit) := by
  refine ⟨empty c, if_neg hc.ne', fun qs offset limit => ?_⟩
  have h := performAll_holds hc qs
  generalize (empty c).performAll qs = s at h
  generalize (sinceClear qs).rtake c = rs at h
  have hread : s.readAt offset limit = (s.content.drop offset).take limit :=
    Sound.readAt ⟨rs, h⟩ offset limit
  have hfrom : s.readFrom offset = s.content.drop offset := Sound.readFrom ⟨rs, h⟩ offset
  refine ⟨hread, fun hle => ?_, hfrom, fun hle => ?_, fun hlt => ?_⟩
  · rw [hread, List.drop_of_length_le (h.length_content.trans_le hle), List.take_nil]
  · rw [hread, hfrom, List.take_of_length_le]
    rw [List.length_drop, h.length_content]
    omega
  · cases hf : s.find? offset with
    | none =>
      rw [find?, h.toList, findFrom?_eq_none_iff, ← h.size_eq] at hf
      exact absurd hlt (Nat.not_lt_of_le hf)
    | some p =>
      obtain ⟨first, later, hget, ho, hrest, hcontent⟩ := h.exists_of_find? hf
      refine ⟨p, first, rfl, hget, ?_⟩
      obtain ⟨hcut, hcopy⟩ := piece_eq ho.le later (min (s.size - offset) limit)
      rw [← hcontent, h.take_min] at hcut hcopy
      rw [hrest]
      exact ⟨hcut, hcopy⟩

/-- Three records of which the first is empty, after an older one was dropped. -/
theorem reads_after_eviction :
    0 < 3 ∧ ∃ s₀, ofCapacity 3 = .ok s₀ ∧
      let s := s₀.performAll [.append ⟨[97, 98, 10]⟩, .append ⟨[]⟩, .append ⟨[99, 10]⟩,
        .append ⟨[100, 10]⟩]
      s.readAt 0 3 = [99, 10, 100] ∧ s.readAt 1 1 = [10] ∧ s.readFrom 2 = [100, 10] ∧
        s.readAt 4 9 = [] := by
  obtain ⟨s₀, h₀, h⟩ := reads_are_pieces (Nat.zero_lt_succ 2)
  obtain rfl : empty 3 = s₀ := Except.ok.inj h₀
  refine ⟨Nat.zero_lt_succ 2, _, h₀, (h _ 0 3).1, (h _ 1 1).1, (h _ 2 0).2.2.1, ?_⟩
  exact (h _ 4 9).2.1 (by decide)

end Store

end CommandLog
