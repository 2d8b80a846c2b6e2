import Mathlib.Data.Nat.Digits.Lemmas
import CommandLog.Decimal

/-! # Decimal numerals read and written

A numeral is a non-empty string of ASCII digits, and leading zeros do not change what it denotes.
Numerals and nothing else are read as numbers. A number is written with the fewest digits, so that
writing what was read gives the numeral back exactly if it has no superfluous leading zero.
-/

namespace CommandLog.Decimal

variable {n d : Nat} {ds : List Nat} {b : UInt8} {bs : List UInt8}

theorem ofDigits_eq (ds : List Nat) : ofDigits ds = Nat.ofDigits 10 ds.reverse := by
  rw [Nat.ofDigits_eq_foldr, List.foldr_reverse, ofDigits]
  congr 1
  funext n d
  simp [Nat.add_comm]

theorem digits_eq_reverse (h : n ≠ 0) : digits n = (Nat.digits 10 n).reverse := by
  induction n using digits.induct with
  | case1 n hn => rw [digits, if_pos hn, Nat.digits_of_lt 10 n h hn, List.reverse_singleton]
  | case2 n hn ih =>
    rw [digits, if_neg hn, ih (by omega), Nat.digits_def' (by decide) (Nat.pos_of_ne_zero h),
      List.reverse_cons]

theorem digits_zero : digits 0 = [0] := by
  rw [digits, if_pos (by decide)]

theorem digits_ne_nil (n : Nat) : digits n ≠ [] := by
  rw [digits]
  split <;> simp

theorem lt_of_mem_digits (h : d ∈ digits n) : d < 10 := by
  by_cases hn : n = 0
  · subst hn
    rw [digits_zero, List.mem_singleton] at h
    omega
  · rw [digits_eq_reverse hn, List.mem_reverse] at h
    exact Nat.digits_lt_base (by decide) h

theorem ofDigits_digits (n : Nat) : ofDigits (digits n) = n := by
  by_cases hn : n = 0
  · subst hn
    rw [digits_zero]
    rfl
  · rw [digits_eq_reverse hn, ofDigits_eq, List.reverse_reverse, Nat.ofDigits_digits]

theorem length_digits_le_of_lt {k : Nat} (hk : 0 < k) (h : n < 10 ^ k) :
    (digits n).length ≤ k := by
  by_cases hn : n = 0
  · subst hn
    rw [digits_zero]
    exact hk
  · rwa [digits_eq_reverse hn, List.length_reverse, Nat.digits_length_le_iff (by decide)]

theorem lt_of_mem_padded {width : Nat} (h : d ∈ padded width n) : d < 10 := by
  rcases List.mem_append.mp h with h | h
  · rw [(List.mem_replicate.mp h).2]
    decide
  · exact lt_of_mem_digits h

theorem length_padded {width : Nat} (hw : 0 < width) (h : n < 10 ^ width) :
    (padded width n).length = width := by
  have hl := length_digits_le_of_lt hw h
  rw [padded, List.length_append, List.length_replicate]
  omega

theorem le_length_padded (width n : Nat) : width ≤ (padded width n).length := by
  rw [padded, List.length_append, List.length_replicate]
  omega

theorem ofDigits_padded (width n : Nat) : ofDigits (padded width n) = n := by
  have hz : ∀ k ds, ofDigits (List.replicate k 0 ++ ds) = ofDigits ds := by
    intro k ds
    induction k with
    | zero => rfl
    | succ k ih => exact ih
  rw [padded, hz, ofDigits_digits]

theorem length_digits_le (hd : ∀ d ∈ ds, d < 10) (hne : ds ≠ []) :
    (digits (ofDigits ds)).length ≤ ds.length := by
  refine length_digits_le_of_lt (List.length_pos_iff.mpr hne) ?_
  rw [ofDigits_eq, ← List.length_reverse]
  exact Nat.ofDigits_lt_base_pow_length (by decide) fun d hm => hd d (List.mem_reverse.mp hm)

/-- The digits of a number are its one digit string without a zero in front that could be left
out. -/
theorem digits_ofDigits_iff (hd : ∀ d ∈ ds, d < 10) (hne : ds ≠ []) :
    digits (ofDigits ds) = ds ↔ (ds.head? = some 0 → ds.length = 1) := by
  constructor
  · intro h h0
    by_cases hn : ofDigits ds = 0
    · rw [← h, hn, digits_zero]
      rfl
    · rw [← h, digits_eq_reverse hn, List.head?_reverse,
        List.getLast?_eq_some_getLast (Nat.digits_ne_nil_iff_ne_zero.mpr hn)] at h0
      exact absurd (Option.some.inj h0) (Nat.getLast_digit_ne_zero 10 hn)
  · intro h
    obtain ⟨d, ds, rfl⟩ := List.exists_cons_of_ne_nil hne
    by_cases h0 : d = 0
    · subst h0
      obtain rfl : ds = [] := by simpa using h rfl
      exact digits_zero
    · have hdigits : Nat.digits 10 (ofDigits (d :: ds)) = (d :: ds).reverse := by
        rw [ofDigits_eq]
        refine Nat.digits_ofDigits 10 (by decide) _ (fun e hm => hd e (List.mem_reverse.mp hm)) ?_
        simpa using h0
      have hn : ofDigits (d :: ds) ≠ 0 := by
        intro hn
        rw [hn, Nat.digits_zero] at hdigits
        exact hne (List.reverse_eq_nil_iff.mp hdigits.symm)
      rw [digits_eq_reverse hn, hdigits, List.reverse_reverse]

theorem ofByte?_eq_some_iff : ofByte? b = some d ↔ d < 10 ∧ b = byte d := by
  unfold ofByte? byte
  constructor
  · intro h
    split at h
    case isTrue hb =>
      obtain ⟨hl, hu⟩ := hb
      rw [UInt8.le_iff_toNat_le] at hl hu
      change 48 ≤ b.toNat at hl
      change b.toNat ≤ 57 at hu
      obtain rfl := Option.some.inj h
      refine ⟨by omega, ?_⟩
      rw [Nat.add_sub_cancel' hl, UInt8.ofNat_toNat]
    case isFalse => cases h
  · rintro ⟨hd, rfl⟩
    interval_cases d <;> rfl

theorem mapM_ofByte?_eq_some_iff :
    bs.mapM ofByte? = some ds ↔ (∀ d ∈ ds, d < 10) ∧ bs = ds.map byte := by
  induction bs generalizing ds with
  | nil =>
    rw [List.mapM_nil]
    constructor
    · rintro ⟨⟩
      exact ⟨nofun, rfl⟩
    · rintro ⟨-, h⟩
      rw [List.map_eq_nil_iff.mp h.symm]
      rfl
  | cons b bs ih =>
    rw [List.mapM_cons]
    constructor
    · intro h
      obtain ⟨d, hd, h⟩ := Option.bind_eq_some_iff.mp h
      obtain ⟨ds, hds, h⟩ := Option.bind_eq_some_iff.mp h
      obtain rfl := Option.some.inj h
      obtain ⟨hlt, rfl⟩ := ofByte?_eq_some_iff.mp hd
      obtain ⟨hlts, rfl⟩ := ih.mp hds
      exact ⟨List.forall_mem_cons.mpr ⟨hlt, hlts⟩, rfl⟩
    · rintro ⟨hlt, h⟩
      obtain ⟨d, ds, rfl, hb, hbs⟩ := List.map_eq_cons_iff.mp h.symm
      obtain ⟨hd, hds⟩ := List.forall_mem_cons.mp hlt
      rw [ofByte?_eq_some_iff.mpr ⟨hd, hb.symm⟩, ih.mpr ⟨hds, hbs.symm⟩]
      rfl

/-- A numeral, which is a non-empty string of ASCII digits, with the number that it denotes. -/
structure Denotes (bs : List UInt8) (n : Nat) : Prop where
  ne_nil : bs ≠ []
  spelled : ∃ ds : List Nat, (∀ d ∈ ds, d < 10) ∧ bs = ds.map byte ∧ n = Nat.ofDigits 10 ds.reverse

/-- No zero in front of other digits. -/
def Canonical (bs : List UInt8) : Prop :=
  bs.head? = some (byte 0) → bs.length = 1

theorem ofBytes?_eq_some_iff : ofBytes? bs = some n ↔ Denotes bs n := by
  unfold ofBytes?
  split
  case isTrue hb =>
    subst hb
    exact ⟨nofun, fun h => absurd rfl h.ne_nil⟩
  case isFalse hb =>
    rw [Option.map_eq_some_iff]
    constructor
    · rintro ⟨ds, h, rfl⟩
      obtain ⟨hd, hs⟩ := mapM_ofByte?_eq_some_iff.mp h
      exact ⟨hb, ds, hd, hs, ofDigits_eq ds⟩
    · rintro ⟨-, ds, hd, hs, rfl⟩
      exact ⟨ds, mapM_ofByte?_eq_some_iff.mpr ⟨hd, hs⟩, ofDigits_eq ds⟩

theorem denotes_bytes (n : Nat) : Denotes (bytes n) n where
  ne_nil h := digits_ne_nil n (List.map_eq_nil_iff.mp h)
  spelled := ⟨digits n, fun _ => lt_of_mem_digits, rfl, by rw [← ofDigits_eq, ofDigits_digits]⟩

theorem denotes_padded (width n : Nat) : Denotes ((padded width n).map byte) n where
  ne_nil h := digits_ne_nil n (List.append_eq_nil_iff.mp (List.map_eq_nil_iff.mp h)).2
  spelled := ⟨padded width n, fun _ => lt_of_mem_padded, rfl,
    by rw [← ofDigits_eq, ofDigits_padded]⟩

theorem byte_inj {d e : Nat} (hd : d < 10) (he : e < 10) (h : byte d = byte e) : d = e := by
  have hb : ofByte? (byte d) = some e := ofByte?_eq_some_iff.mpr ⟨he, h⟩
  exact Option.some.inj ((ofByte?_eq_some_iff.mpr ⟨hd, rfl⟩).symm.trans hb)

theorem map_byte_inj {ds es : List Nat} (hd : ∀ d ∈ ds, d < 10) (he : ∀ e ∈ es, e < 10) :
    ds.map byte = es.map byte ↔ ds = es := by
  refine ⟨fun h => ?_, congrArg _⟩
  have hb : (ds.map byte).mapM ofByte? = some es := mapM_ofByte?_eq_some_iff.mpr ⟨he, h⟩
  exact Option.some.inj ((mapM_ofByte?_eq_some_iff.mpr ⟨hd, rfl⟩).symm.trans hb)

theorem Denotes.bytes_eq_iff (h : Denotes bs n) : bytes n = bs ↔ Canonical bs := by
  obtain ⟨hne, ds, hd, rfl, rfl⟩ := h
  have hne : ds ≠ [] := by simpa using hne
  rw [bytes, ← ofDigits_eq, map_byte_inj (fun _ => lt_of_mem_digits) hd,
    digits_ofDigits_iff hd hne, Canonical, List.length_map]
  obtain ⟨d, ds, rfl⟩ := List.exists_cons_of_ne_nil hne
  have hb : byte d = byte 0 ↔ d = 0 :=
    ⟨byte_inj (hd d List.mem_cons_self) (by decide), congrArg _⟩
  simp [hb]

/-- No numeral for a number is shorter than the one that is written. -/
theorem Denotes.length_bytes_le (h : Denotes bs n) : (bytes n).length ≤ bs.length := by
  obtain ⟨hne, ds, hd, rfl, rfl⟩ := h
  rw [bytes, List.length_map, List.length_map, ← ofDigits_eq]
  exact length_digits_le hd (by simpa using hne)

theorem Denotes.not_mem (h : Denotes bs n) (hb : ofByte? b = none) : b ∉ bs := by
  obtain ⟨-, ds, hd, rfl, -⟩ := h
  rw [List.mem_map]
  rintro ⟨d, hm, rfl⟩
  rw [ofByte?_eq_some_iff.mpr ⟨hd d hm, rfl⟩] at hb
  cases hb

end CommandLog.Decimal
