import CommandLog.Proofs.Store.Content

/-! # Offsets and places

A place lies in a store if its record is held and reaches beyond its offset. Such places and the
offsets below the size stand for each other: finding undoes resolving, and resolving undoes finding.
A record without a byte has no place in it. The offsets come in the order of their places, by record
first.
-/

namespace CommandLog

def Place.Before (p q : Place) : Prop :=
  p.index < q.index ∨ p.index = q.index ∧ p.offset < q.offset

theorem Place.before_trichotomy (p q : Place) : p.Before q ∨ p = q ∨ q.Before p := by
  obtain ⟨i, o⟩ := p
  obtain ⟨j, u⟩ := q
  simp only [Before, mk.injEq]
  omega

open Record

namespace Store

variable {s : Store} {rs : List Record} {r : Record} {p q : Place} {index offset m n : Nat}

def Contains (s : Store) (p : Place) : Prop :=
  p.index < s.count ∧ ∃ r, s.get? p.index = some r ∧ p.offset < r.length

instance (s : Store) (p : Place) : Decidable (s.Contains p) :=
  decidable_of_iff (p.index < s.count ∧ (s.get? p.index).any (p.offset < ·.length) = true)
    (by simp [Contains, Option.any_eq_true])

theorem Holds.contains_iff (h : s.Holds rs) :
    s.Contains p ↔ ∃ r, rs[p.index]? = some r ∧ p.offset < r.length := by
  rw [Contains, h.get?, h.count_eq]
  constructor
  · rintro ⟨-, hr⟩
    exact hr
  · rintro ⟨r, hr, ho⟩
    obtain ⟨hlt, -⟩ := List.getElem?_eq_some_iff.mp hr
    exact ⟨hlt, r, hr, ho⟩

theorem Holds.resolve_eq_ok_iff (h : s.Holds rs) : s.resolve index offset = .ok n ↔
    s.Contains ⟨index, offset⟩ ∧ totalLength (rs.take index) + offset = n := by
  rw [h.resolve, h.contains_iff]
  cases rs[index]? with
  | none => simp
  | some r => by_cases ho : offset < r.length <;> simp [ho]

theorem Holds.resolve_of_not_contains (h : s.Holds rs) (hn : ¬ s.Contains ⟨index, offset⟩) :
    s.resolve index offset = .error (.outOfRange index offset) := by
  cases hr : s.resolve index offset with
  | ok n => exact absurd (h.resolve_eq_ok_iff.mp hr).1 hn
  | error cause => rw [resolve_eq_error hr]

theorem totalLength_take_succ (hr : rs[index]? = some r) :
    totalLength (rs.take (index + 1)) = totalLength (rs.take index) + r.length := by
  rw [List.take_add_one, hr, totalLength_append]
  rfl

theorem totalLength_take_mono (rs : List Record) {i j : Nat} (hij : i ≤ j) :
    totalLength (rs.take i) ≤ totalLength (rs.take j) := by
  rw [← List.take_append_drop i (rs.take j), totalLength_append, List.take_take, min_eq_left hij]
  exact Nat.le_add_right _ _

/-- The walk passes every record before the one that an offset lies in, however short. -/
theorem findFrom?_of_getElem? (hr : rs[index]? = some r) (ho : offset < r.length) (first : Nat) :
    findFrom? rs first (totalLength (rs.take index) + offset) = some ⟨first + index, offset⟩ := by
  induction rs generalizing index first with
  | nil => cases hr
  | cons r₀ rs ih =>
    rw [findFrom?]
    cases index with
    | zero =>
      obtain rfl := Option.some.inj hr
      simp [ho]
    | succ index =>
      have hpass : ¬ totalLength ((r₀ :: rs).take (index + 1)) + offset < r₀.length := by
        rw [List.take_succ_cons, totalLength_cons]
        omega
      have hrest : totalLength ((r₀ :: rs).take (index + 1)) + offset - r₀.length =
          totalLength (rs.take index) + offset := by
        rw [List.take_succ_cons, totalLength_cons]
        omega
      rw [if_neg hpass, hrest, ih hr, Nat.add_right_comm, Nat.add_assoc]

theorem Holds.find?_of_resolve (h : s.Holds rs) (hr : s.resolve index offset = .ok n) :
    s.find? n = some ⟨index, offset⟩ := by
  obtain ⟨hc, rfl⟩ := h.resolve_eq_ok_iff.mp hr
  obtain ⟨r, hr, ho⟩ := h.contains_iff.mp hc
  rw [find?, h.toList, findFrom?_of_getElem? hr ho, Nat.zero_add]

theorem Holds.resolve_of_find? (h : s.Holds rs) (hf : s.find? n = some p) :
    s.resolve p.index p.offset = .ok n := by
  rw [find?, h.toList] at hf
  obtain ⟨k, r, hk, hi, ho, rfl⟩ := exists_of_findFrom? hf
  obtain rfl : p.index = k := by omega
  exact h.resolve_eq_ok_iff.mpr ⟨h.contains_iff.mpr ⟨r, hk, ho⟩, rfl⟩

theorem Holds.exists_find?_iff (h : s.Holds rs) : (∃ p, s.find? n = some p) ↔ n < s.size := by
  rw [← Option.ne_none_iff_exists', find?, h.toList, Ne, findFrom?_eq_none_iff, ← h.size_eq,
    Nat.not_le]

theorem Holds.lt_of_before (h : s.Holds rs) (hp : s.resolve p.index p.offset = .ok m)
    (hq : s.resolve q.index q.offset = .ok n) (hb : p.Before q) : m < n := by
  obtain ⟨hc, rfl⟩ := h.resolve_eq_ok_iff.mp hp
  obtain ⟨-, rfl⟩ := h.resolve_eq_ok_iff.mp hq
  obtain ⟨r, hr, ho⟩ : ∃ r, rs[p.index]? = some r ∧ p.offset < r.length := h.contains_iff.mp hc
  rcases hb with hi | ⟨hi, hlt⟩
  · have hmono := totalLength_take_mono rs (Nat.succ_le_of_lt hi)
    rw [totalLength_take_succ hr] at hmono
    omega
  · rw [hi]
    omega

theorem Holds.lt_iff_before (h : s.Holds rs) (hp : s.resolve p.index p.offset = .ok m)
    (hq : s.resolve q.index q.offset = .ok n) : m < n ↔ p.Before q := by
  refine ⟨fun hlt => ?_, h.lt_of_before hp hq⟩
  rcases p.before_trichotomy q with hb | rfl | hb
  · exact hb
  · exact absurd hlt (Except.ok.inj (hp.symm.trans hq)).not_lt
  · exact absurd (h.lt_of_before hq hp hb) hlt.not_gt

theorem Holds.drop_content (h : s.Holds rs) (hr : s.resolve index offset = .ok n)
    (hget : s.get? index = some r) :
    s.content.drop n = r.bytes.drop offset ++ joined (s.toList.drop (index + 1)) := by
  obtain ⟨hc, rfl⟩ := h.resolve_eq_ok_iff.mp hr
  obtain ⟨r', hr', ho⟩ := h.contains_iff.mp hc
  obtain rfl := Option.some.inj (hr'.symm.trans ((h.get? index).symm.trans hget))
  obtain ⟨hlt, rfl⟩ := List.getElem?_eq_some_iff.mp hr'
  rw [h.content, drop_joined, h.toList, List.drop_eq_getElem_cons hlt, joined_cons,
    List.drop_append_of_le_length ho.le]

theorem readFromPlace_eq_error_iff {cause : LogError} :
    s.readFromPlace index offset = .error cause ↔ s.resolve index offset = .error cause := by
  rw [readFromPlace]
  cases s.resolve index offset <;> simp [Except.map]

theorem Holds.readFromPlace_of_resolve (h : s.Holds rs) (hr : s.resolve index offset = .ok n)
    (hget : s.get? index = some r) : s.readFromPlace index offset =
      .ok (r.bytes.drop offset ++ joined (s.toList.drop (index + 1))) := by
  rw [readFromPlace, hr, ← h.drop_content hr hget, ← Sound.readFrom ⟨rs, h⟩]
  rfl

/-- Offsets below the size and places in the store stand for each other. -/
structure Addressed (s : Store) : Prop where
  find : ∀ n, (∃ p, s.find? n = some p) ↔ n < s.size
  resolve_find : ∀ n p, s.find? n = some p → s.resolve p.index p.offset = .ok n
  resolve : ∀ index offset, (∃ n, s.resolve index offset = .ok n) ↔ s.Contains ⟨index, offset⟩
  astray : ∀ index offset, ¬ s.Contains ⟨index, offset⟩ →
    s.resolve index offset = .error (.outOfRange index offset)
  find_resolve : ∀ index offset n, s.resolve index offset = .ok n →
    s.find? n = some ⟨index, offset⟩
  order : ∀ (p q : Place) (m n : Nat), s.resolve p.index p.offset = .ok m →
    s.resolve q.index q.offset = .ok n → (m < n ↔ p.Before q)
  unread : ∀ index offset cause,
    s.readFromPlace index offset = .error cause ↔ s.resolve index offset = .error cause
  read : ∀ index offset n r, s.resolve index offset = .ok n → s.get? index = some r →
    s.readFromPlace index offset = .ok
      (r.bytes.drop offset ++ ((s.toList.drop (index + 1)).map Record.bytes).flatten)

/-- In every store that appends and clearings lead to, the offsets of the content and the places in
the records are the same bytes in the same order. -/
theorem offsets_are_places {c : Nat} (hc : 0 < c) :
    ∃ s₀, ofCapacity c = .ok s₀ ∧ ∀ qs : List Request, (s₀.performAll qs).Addressed := by
  refine ⟨empty c, if_neg hc.ne', fun qs => ?_⟩
  have h := performAll_holds hc qs
  exact
    { find := fun n => h.exists_find?_iff
      resolve_find := fun n p => h.resolve_of_find?
      resolve := fun index offset => by simp [h.resolve_eq_ok_iff]
      astray := fun index offset => h.resolve_of_not_contains
      find_resolve := fun index offset n => h.find?_of_resolve
      order := fun p q m n => h.lt_iff_before
      unread := fun index offset cause => readFromPlace_eq_error_iff
      read := fun index offset n r => h.readFromPlace_of_resolve }

/-- After an eviction the first of three records is empty: the first byte is in the second. -/
theorem offsets_after_eviction :
    0 < 3 ∧ ∃ s₀, ofCapacity 3 = .ok s₀ ∧
      let s := s₀.performAll [.append ⟨[97, 98, 10]⟩, .append ⟨[]⟩, .append ⟨[99, 10]⟩,
        .append ⟨[100, 10]⟩]
      s.find? 0 = some ⟨1, 0⟩ ∧ s.resolve 2 1 = .ok 3 ∧ (3 < s.size) ∧
        s.resolve 0 0 = .error (.outOfRange 0 0) ∧ s.readFromPlace 1 1 = .ok [10, 100, 10] := by
  obtain ⟨s₀, h₀, h⟩ := offsets_are_places (Nat.zero_lt_succ 2)
  obtain rfl : empty 3 = s₀ := Except.ok.inj h₀
  have ha := h [.append ⟨[97, 98, 10]⟩, .append ⟨[]⟩, .append ⟨[99, 10]⟩, .append ⟨[100, 10]⟩]
  refine ⟨Nat.zero_lt_succ 2, _, h₀, ?_, ?_, ?_, ?_, ?_⟩
  · exact ha.find_resolve 1 0 0 (by decide)
  · exact ha.resolve_find 3 ⟨2, 1⟩ (by decide)
  · exact (ha.find 3).mp ⟨⟨2, 1⟩, by decide⟩
  · exact ha.astray 0 0 (by decide)
  · exact ha.read 1 1 1 ⟨[99, 10]⟩ (by decide) (by decide)

end Store

end CommandLog
