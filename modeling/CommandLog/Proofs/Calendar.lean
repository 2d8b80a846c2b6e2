import CommandLog.Calendar

/-! # Dates and day numbers

The numbering of days follows the lengths of the years and months: each year begins as many days
after the one before as that has days. Every day number belongs to a date that exists, and numbering
that date gives it back, before the year 1 as well as after it.
-/

namespace CommandLog

namespace Calendar

def yearLength (leap : Bool) : Nat :=
  if leap then 366 else 365

theorem foldr_monthLengths (leap : Bool) :
    (monthLengths leap).foldr (· + ·) 0 = yearLength leap := by
  cases leap <;> rfl

theorem isLeap_iff (year : Int) :
    isLeap year = true ↔ year % 4 = 0 ∧ (year % 100 ≠ 0 ∨ year % 400 = 0) := by
  simp [isLeap]

theorem daysBeforeYear_succ (year : Int) :
    daysBeforeYear (year + 1) = daysBeforeYear year + yearLength (isLeap year) := by
  have hleap := isLeap_iff year
  cases h : isLeap year with
  | true =>
    have := hleap.mp h
    simp only [daysBeforeYear, yearLength, if_true]
    omega
  | false =>
    have : ¬ _ := mt hleap.mpr (by simp [h])
    simp only [daysBeforeYear, yearLength, Bool.false_eq_true, if_false]
    omega

theorem daysBeforeYear_mono {a b : Int} (h : a ≤ b) : daysBeforeYear a ≤ daysBeforeYear b := by
  simp only [daysBeforeYear]
  omega

/-- The years of a cycle of 400: so many centuries, groups of four years and single years. -/
theorem daysBeforeYear_of_parts (cycle : Int) {century quad year : Nat} (hc : century ≤ 3)
    (hq : quad ≤ 24) (hy : year ≤ 3) :
    daysBeforeYear (400 * cycle + (100 * century + 4 * quad + year + 1 : Nat)) =
      146097 * cycle + (36524 * century + 1461 * quad + 365 * year : Nat) := by
  simp only [daysBeforeYear]
  omega

theorem isLeap_of_parts (cycle : Int) {century quad year : Nat} (hc : century ≤ 3)
    (hq : quad ≤ 24) (hy : year ≤ 3) :
    isLeap (400 * cycle + (100 * century + 4 * quad + year + 1 : Nat)) =
      decide (year = 3 ∧ (quad ≠ 24 ∨ century = 3)) := by
  rw [Bool.eq_iff_iff, isLeap_iff, decide_eq_true_eq]
  omega

/-- A day belongs to the year that has begun and is not over. -/
theorem yearOf_spec (n : Int) :
    daysBeforeYear (yearOf n).1 + (yearOf n).2 = n ∧
      (yearOf n).2 < yearLength (isLeap (yearOf n).1) := by
  unfold yearOf
  extract_lets cycle inCycle century inCentury quad inQuad year
  have hcycle : n = 146097 * cycle + inCycle := by omega
  have hlt : inCycle < 146097 := by omega
  clear_value cycle inCycle
  have hcentury : century ≤ 3 := Nat.min_le_right _ _
  have hin : inCycle = 36524 * century + inCentury := by omega
  have hfull : inCentury ≤ 36524 ∧ (century ≠ 3 → inCentury < 36524) := by omega
  clear_value century inCentury
  have hquad : inCentury = 1461 * quad + inQuad := by omega
  have hq : quad ≤ 24 := by omega
  have hinQuad : inQuad < 1461 := by omega
  clear_value quad inQuad
  have hyear : year ≤ 3 := Nat.min_le_right _ _
  have hday : inQuad = 365 * year + (inQuad - year * 365) := by omega
  have hover : inQuad - year * 365 < 366 ∧ (year ≠ 3 → inQuad - year * 365 < 365) := by omega
  clear_value year
  rw [daysBeforeYear_of_parts cycle hcentury hq hyear, isLeap_of_parts cycle hcentury hq hyear]
  refine ⟨by omega, ?_⟩
  unfold yearLength
  split
  case isTrue => exact hover.1
  case isFalse h =>
    rw [decide_eq_true_eq] at h
    omega

theorem locate_spec {lengths : List Nat} {day : Nat} (month : Nat)
    (h : day < lengths.foldr (· + ·) 0) :
    ∃ i l, lengths[i]? = some l ∧ (locate lengths month day).1 = month + i ∧
      (lengths.take i).foldr (· + ·) 0 + (locate lengths month day).2 = day ∧
      (locate lengths month day).2 < l := by
  induction lengths generalizing month day with
  | nil => simp at h
  | cons l ls ih =>
    rw [locate]
    split
    case isTrue hlt => exact ⟨0, l, rfl, rfl, by simp, hlt⟩
    case isFalse hge =>
      rw [List.foldr_cons] at h
      obtain ⟨i, l', hl, hmonth, hday, hlt⟩ := ih (month + 1)
        (show day - l < ls.foldr (· + ·) 0 by omega)
      refine ⟨i + 1, l', hl, by omega, ?_, hlt⟩
      rw [List.take_succ_cons, List.foldr_cons]
      omega

end Calendar

namespace Date

open Calendar

/-- A date of the calendar: the month has such a day. -/
structure Exists (d : Date) : Prop where
  month : 1 ≤ d.month
  first : 1 ≤ d.day
  last : ∃ l, (monthLengths (isLeap d.year))[d.month - 1]? = some l ∧ d.day ≤ l

theorem Exists.bounds {d : Date} (h : d.Exists) : d.month ≤ 12 ∧ d.day ≤ 31 := by
  obtain ⟨l, hl, hd⟩ := h.last
  have hlen : ∀ leap, (monthLengths leap).length = 12 := by decide
  have hmax : ∀ leap, ∀ l ∈ monthLengths leap, l ≤ 31 := by decide
  have hlt := (List.getElem?_eq_some_iff.mp hl).1
  rw [hlen] at hlt
  exact ⟨by omega, Nat.le_trans hd (hmax _ l (List.mem_of_getElem? hl))⟩

/-- A year has come on a day when so many days have passed. -/
theorem le_year_ofDayNumber_iff {year n : Int} :
    year ≤ (ofDayNumber n).year ↔ daysBeforeYear year ≤ n + epochShift := by
  obtain ⟨hyear, hday⟩ := yearOf_spec (n + epochShift)
  have hsucc := daysBeforeYear_succ (yearOf (n + epochShift)).1
  change year ≤ (yearOf (n + epochShift)).1 ↔ _
  constructor
  · intro h
    have hmono := daysBeforeYear_mono h
    omega
  · intro h
    refine Int.not_lt.mp fun hlt => ?_
    have hmono := daysBeforeYear_mono (Int.add_one_le_of_lt hlt)
    omega

/-- Every day number is that of an existing date, and of no other than the one it is shown as. -/
theorem ofDayNumber_spec (n : Int) : (ofDayNumber n).Exists ∧ (ofDayNumber n).dayNumber = n := by
  obtain ⟨hyear, hday⟩ := yearOf_spec (n + epochShift)
  rw [← foldr_monthLengths] at hday
  obtain ⟨i, l, hl, hmonth, hsum, hlt⟩ := locate_spec 1 hday
  have hd : ofDayNumber n = ⟨(yearOf (n + epochShift)).1, 1 + i, (locate (monthLengths (isLeap
      (yearOf (n + epochShift)).1)) 1 (yearOf (n + epochShift)).2).2 + 1⟩ := by
    rw [ofDayNumber, ← hmonth]
  rw [hd]
  refine ⟨⟨by simp, by simp, l, ?_, hlt⟩, ?_⟩
  · rwa [Nat.add_sub_cancel_left]
  · simp only [dayNumber, daysBeforeMonth, Nat.add_sub_cancel_left]
    omega

end Date

end CommandLog
