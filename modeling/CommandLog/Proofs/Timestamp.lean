import CommandLog.Proofs.Decimal
import CommandLog.Proofs.Framing.Lines
import CommandLog.Timestamp

/-! # Time records are lines

A time record is made of names, digits, signs and separators. None of them is a newline, whatever
instant and offset it shows, so the newline at its end is its only one.
-/

namespace CommandLog.Timestamp

variable {b : UInt8}

theorem not_mem_digits (hb : Decimal.ofByte? b = none) (width n : Nat) : b ∉ digits width n :=
  (Decimal.denotes_padded width n).not_mem hb

/-- A name that is not in the list is shown as nothing. -/
theorem not_mem_name {names : List String} (hn : ∀ s ∈ names, b ∉ Bytes.ofAscii s) (i : Nat) :
    b ∉ name names i := by
  rw [name, List.getD_eq_getElem?_getD]
  cases h : names[i]? with
  | none => exact List.not_mem_nil
  | some s => exact hn s (List.mem_of_getElem? h)

theorem not_mem_year (hb : Decimal.ofByte? b = none) (hs : ∀ negative, b ≠ sign negative)
    (y : Int) : b ∉ year y := by
  unfold year
  split
  · exact not_mem_digits hb _ _
  · simp [not_mem_digits hb, hs]

theorem not_mem_zone (hb : Decimal.ofByte? b = none) (hs : ∀ negative, b ≠ sign negative)
    (offset : Int) : b ∉ zone offset := by
  simp [zone, not_mem_digits hb, hs]

theorem newline_not_mem_body (t : ZonedTime) : newline ∉ body t := by
  have hdigit : Decimal.ofByte? newline = none := rfl
  have hsign : ∀ negative, newline ≠ sign negative := by decide
  have hweekday := not_mem_name (show ∀ s ∈ Calendar.weekdayNames, newline ∉ Bytes.ofAscii s by
    decide)
  have hmonth := not_mem_name (show ∀ s ∈ Calendar.monthNames, newline ∉ Bytes.ofAscii s by decide)
  have hcomma : newline ∉ Bytes.ofAscii ", " := by decide
  have hspace : newline ≠ 32 := by decide
  have hcolon : newline ≠ 58 := by decide
  simp [body, not_mem_digits hdigit, not_mem_year hdigit hsign, not_mem_zone hdigit hsign, hweekday,
    hmonth, hcomma, hspace, hcolon]

theorem isLine_record (t : ZonedTime) : (record t).bytes.IsLine := by
  have hheader : newline ∉ header := by decide
  exact ⟨header ++ body t, by simp [hheader, newline_not_mem_body t], rfl⟩

end CommandLog.Timestamp
