import CommandLog.Proofs.Calendar
import CommandLog.Proofs.Directive
import CommandLog.Proofs.Timestamp

/-! # Reading time records back

A time record is read field by field, with no knowledge of the instant that it shows. The fields
denote a second as a local time of the proleptic Gregorian calendar at an offset. Reading the record
of an instant that is in no leap second, shown at an offset of whole minutes, gives that second
back. No time record is a directive.
-/

namespace CommandLog.Timestamp

/-- What a time record says. -/
structure Reading where
  /-- The day of the week, 0 being Sunday. -/
  weekday : Nat
  date : Date
  hour : Nat
  minute : Nat
  second : Nat
  /-- Minutes east of Greenwich. -/
  offset : Int
  deriving DecidableEq, Repr

namespace Reading

/-- The second since the start of 1970 that a local time at an offset denotes. -/
def seconds (r : Reading) : Int :=
  86400 * r.date.dayNumber + (3600 * r.hour + 60 * r.minute + r.second : Nat) - 60 * r.offset

/-- The fields go together: the date exists and is on that day of the week, and the time and the
offset are those of a clock. -/
structure Sound (r : Reading) : Prop where
  date : r.date.Exists
  weekday : r.weekday = Calendar.weekday r.date.dayNumber
  hour : r.hour < 24
  minute : r.minute < 60
  second : r.second < 60
  offset : r.offset.natAbs < 1440

end Reading

def space : UInt8 := 32

def comma : UInt8 := 44

def colon : UInt8 := 58

def index? (names : List String) (bs : Bytes) : Option Nat :=
  names.findIdx? fun s => Bytes.ofAscii s = bs

def number? (width : Nat) (bs : Bytes) : Option Nat :=
  if bs.length = width then Decimal.ofBytes? bs else none

def signed? (read : Bytes → Option Nat) : Bytes → Option Int
  | [] => none
  | b :: bs =>
    if b = sign false then (read bs).map Int.ofNat
    else if b = sign true then (read bs).map fun n => -Int.ofNat n
    else none

/-- Four digits, or a sign and at least four. -/
def year? (bs : Bytes) : Option Int :=
  match number? 4 bs with
  | some n => some n
  | none => signed? (fun ds => if 4 ≤ ds.length then Decimal.ofBytes? ds else none) bs

def time? : Bytes → Option (Nat × Nat × Nat)
  | [h₁, h₂, c₁, m₁, m₂, c₂, s₁, s₂] =>
    if c₁ = colon ∧ c₂ = colon then do
      let hour ← Decimal.ofBytes? [h₁, h₂]
      let minute ← Decimal.ofBytes? [m₁, m₂]
      let second ← Decimal.ofBytes? [s₁, s₂]
      some (hour, minute, second)
    else none
  | _ => none

def span? : Bytes → Option Nat
  | [h₁, h₂, m₁, m₂] => do
    let hours ← Decimal.ofBytes? [h₁, h₂]
    let minutes ← Decimal.ofBytes? [m₁, m₂]
    some (60 * hours + minutes)
  | _ => none

def ofFields? : List Bytes → Option Reading
  | [weekday, day, month, year, time, zone] => do
    let weekday ← index? (Calendar.weekdayNames.map (· ++ ",")) weekday
    let day ← number? 2 day
    let month ← index? Calendar.monthNames month
    let year ← year? year
    let (hour, minute, second) ← time? time
    let offset ← signed? span? zone
    some ⟨weekday, ⟨year, month + 1, day⟩, hour, minute, second, offset⟩
  | _ => none

def read? (line : Bytes) : Option Reading :=
  if line.getLast? = some newline then
    (header.isPrefixOf? line.dropLast).bind fun body => ofFields? (body.splitOn space)
  else none

variable {t : ZonedTime} {n i : Nat}

theorem ofBytes?_digits (width n : Nat) : Decimal.ofBytes? (digits width n) = some n :=
  Decimal.ofBytes?_eq_some_iff.mpr (Decimal.denotes_padded width n)

theorem length_digits {width : Nat} (hw : 0 < width) (hn : n < 10 ^ width) :
    (digits width n).length = width := by
  rw [digits, List.length_map, Decimal.length_padded hw hn]

theorem number?_digits {width : Nat} (hw : 0 < width) (hn : n < 10 ^ width) :
    number? width (digits width n) = some n := by
  rw [number?, if_pos (length_digits hw hn), ofBytes?_digits]

theorem exists_two_digits (hn : n < 100) :
    ∃ a b, digits 2 n = [a, b] ∧ Decimal.ofBytes? [a, b] = some n := by
  obtain ⟨a, b, h⟩ := List.length_eq_two.mp (length_digits (show 0 < 2 by decide) hn)
  exact ⟨a, b, h, h ▸ ofBytes?_digits 2 n⟩

theorem signed?_sign {read : Bytes → Option Nat} {bs : Bytes} {x : Int}
    (h : read bs = some x.natAbs) : signed? read (sign (x < 0) :: bs) = some x := by
  by_cases hx : x < 0
  · have hs : sign true ≠ sign false := by decide
    rw [decide_eq_true hx, signed?, if_neg hs, if_pos rfl, h]
    exact congrArg some (show -(x.natAbs : Int) = x by omega)
  · rw [decide_eq_false hx, signed?, if_pos rfl, h]
    exact congrArg some (Int.natAbs_of_nonneg (Int.not_lt.mp hx))

theorem year?_year (y : Int) : year? (year y) = some y := by
  unfold year
  split
  case isTrue h =>
    have hn : y.toNat < 10 ^ 4 := by omega
    rw [year?, number?_digits (by decide) hn]
    exact congrArg some (Int.toNat_of_nonneg h.1)
  case isFalse h =>
    have hl : 4 ≤ (digits 4 y.natAbs).length := by
      rw [digits, List.length_map]
      exact Decimal.le_length_padded 4 _
    have hn : number? 4 (sign (y < 0) :: digits 4 y.natAbs) = none := by
      rw [number?, if_neg]
      rw [List.length_cons]
      omega
    rw [year?, hn]
    exact signed?_sign (by rw [if_pos hl, ofBytes?_digits])

theorem time?_digits {hour minute second : Nat} (hh : hour < 100) (hm : minute < 100)
    (hs : second < 100) :
    time? (digits 2 hour ++ colon :: digits 2 minute ++ colon :: digits 2 second) =
      some (hour, minute, second) := by
  obtain ⟨h₁, h₂, hhd, hh⟩ := exists_two_digits hh
  obtain ⟨m₁, m₂, hmd, hm⟩ := exists_two_digits hm
  obtain ⟨s₁, s₂, hsd, hs⟩ := exists_two_digits hs
  simp [time?, hhd, hmd, hsd, hh, hm, hs]

theorem signed?_zone {minutes : Int} (h : minutes.natAbs < 1440) :
    signed? span? (zone (60 * minutes)) = some minutes := by
  have hm : offsetMinutes (60 * minutes) = minutes.natAbs := by
    unfold offsetMinutes
    omega
  obtain ⟨h₁, h₂, hhd, hh⟩ := exists_two_digits (n := minutes.natAbs / 60) (by omega)
  obtain ⟨m₁, m₂, hmd, hmm⟩ := exists_two_digits (n := minutes.natAbs % 60) (by omega)
  have hspan : span? [h₁, h₂, m₁, m₂] = some minutes.natAbs := by
    simp [span?, hh, hmm, Nat.div_add_mod]
  have hsign : decide (60 * minutes < 0) = decide (minutes < 0) := decide_eq_decide.mpr (by omega)
  rw [zone, hm, hsign, hhd, hmd]
  exact signed?_sign hspan

def fields (t : ZonedTime) : List Bytes :=
  [name Calendar.weekdayNames (Calendar.weekday t.dayNumber) ++ [comma], digits 2 t.date.day,
    name Calendar.monthNames (t.date.month - 1), year t.date.year,
    digits 2 t.hour ++ colon :: digits 2 t.minute ++ colon :: digits 2 t.second, zone t.offset]

theorem body_eq (t : ZonedTime) : body t = [space].intercalate (fields t) := by
  have hcomma : Bytes.ofAscii ", " = [comma, space] := rfl
  simp [body, fields, hcomma, List.intercalate, space, colon]

theorem space_not_mem {field : Bytes} (h : field ∈ fields t) : space ∉ field := by
  have hdigit : Decimal.ofByte? space = none := rfl
  have hsign : ∀ negative, space ≠ sign negative := by decide
  have hweekday := not_mem_name (show ∀ s ∈ Calendar.weekdayNames, space ∉ Bytes.ofAscii s by
    decide)
  have hmonth := not_mem_name (show ∀ s ∈ Calendar.monthNames, space ∉ Bytes.ofAscii s by decide)
  have hcomma : space ≠ comma := by decide
  have hcolon : space ≠ colon := by decide
  simp only [fields, List.mem_cons, List.not_mem_nil, or_false] at h
  rcases h with rfl | rfl | rfl | rfl | rfl | rfl
  · simp [hweekday, hcomma]
  · exact not_mem_digits hdigit _ _
  · exact hmonth _
  · exact not_mem_year hdigit hsign _
  · simp [not_mem_digits hdigit, hcolon]
  · exact not_mem_zone hdigit hsign _

theorem read?_record (t : ZonedTime) : read? (record t).bytes = ofFields? (fields t) := by
  have hsplit : (body t).splitOn space = fields t := by
    rw [body_eq]
    exact List.splitOn_intercalate space (fun _ => space_not_mem) (List.cons_ne_nil _ _)
  rw [read?, record, List.getLast?_concat, if_pos rfl, List.dropLast_concat,
    List.isPrefixOf?_eq_some_iff_append_eq.mpr rfl, Option.bind_some, hsplit]

theorem index?_weekday {i : Nat} (hi : i < 7) :
    index? (Calendar.weekdayNames.map (· ++ ",")) (name Calendar.weekdayNames i ++ [comma]) =
      some i := by
  revert i
  decide

theorem index?_month {i : Nat} (hi : i < 12) :
    index? Calendar.monthNames (name Calendar.monthNames i) = some i := by
  revert i
  decide

theorem localSeconds_eq (t : ZonedTime) :
    t.localSeconds = 86400 * t.dayNumber + t.secondOfDay ∧ t.secondOfDay < 86400 := by
  unfold ZonedTime.dayNumber ZonedTime.secondOfDay
  omega

/-- Outside leap seconds and at whole minutes, the fields are read as the instant. -/
theorem ofFields?_fields (hn : t.nanoseconds < 1000000000) {minutes : Int}
    (ho : t.offset = 60 * minutes) (hm : minutes.natAbs < 1440) :
    ∃ r, ofFields? (fields t) = some r ∧ r.Sound ∧ r.seconds = t.seconds ∧ r.offset = minutes := by
  obtain ⟨hdate, hday⟩ := Date.ofDayNumber_spec t.dayNumber
  obtain ⟨hlocal, hlt⟩ := localSeconds_eq t
  have hbounds := hdate.bounds
  have hfirst := hdate.month
  change t.date.Exists at hdate
  change t.date.dayNumber = t.dayNumber at hday
  change t.date.month ≤ 12 ∧ t.date.day ≤ 31 at hbounds
  change 1 ≤ t.date.month at hfirst
  have hleap : t.nanoseconds / 1000000000 = 0 := Nat.div_eq_of_lt hn
  have hhour : t.hour < 24 := by unfold ZonedTime.hour; omega
  have hminute : t.minute < 60 := Nat.mod_lt _ (by decide)
  have hsecond : t.second < 60 := by unfold ZonedTime.second; omega
  have hparts : 3600 * t.hour + 60 * t.minute + t.second = t.secondOfDay := by
    unfold ZonedTime.hour ZonedTime.minute ZonedTime.second
    omega
  have hweekday : Calendar.weekday t.dayNumber < 7 := by unfold Calendar.weekday; omega
  have hmonth : t.date.month - 1 + 1 = t.date.month := Nat.sub_add_cancel hfirst
  refine ⟨⟨Calendar.weekday t.dayNumber, t.date, t.hour, t.minute, t.second, minutes⟩, ?_,
    ⟨hdate, by rw [hday], hhour, hminute, hsecond, hm⟩, ?_, rfl⟩
  · rw [fields, ofFields?, index?_weekday hweekday, number?_digits (by decide) (by omega),
      index?_month (by omega), year?_year, time?_digits (by omega) (by omega) (by omega), ho,
      signed?_zone hm]
    simp [hmonth]
  · rw [Reading.seconds, hday, hparts]
    unfold ZonedTime.localSeconds at hlocal
    dsimp only
    omega

theorem length_name_weekday {i : Nat} (hi : i < 7) : (name Calendar.weekdayNames i).length = 3 := by
  revert i
  decide

theorem length_name_month {i : Nat} (hi : i < 12) : (name Calendar.monthNames i).length = 3 := by
  revert i
  decide

/-- In the years of four digits all records have the same length, in leap seconds too. -/
theorem length_record (hn : t.nanoseconds < 2000000000) (ho : t.offset.natAbs < 86400)
    (hy : 0 ≤ t.date.year ∧ t.date.year ≤ 9999) : (record t).bytes.length = 43 := by
  obtain ⟨hlocal, hlt⟩ := localSeconds_eq t
  have hbounds := (Date.ofDayNumber_spec t.dayNumber).1.bounds
  change t.date.month ≤ 12 ∧ t.date.day ≤ 31 at hbounds
  have hweekday : Calendar.weekday t.dayNumber < 7 := by unfold Calendar.weekday; omega
  have hhour : t.hour < 100 := by unfold ZonedTime.hour; omega
  have hminute : t.minute < 100 := by unfold ZonedTime.minute; omega
  have hsecond : t.second < 100 := by unfold ZonedTime.second; omega
  have hminutes : offsetMinutes t.offset ≤ 1440 := by unfold offsetMinutes; omega
  have htwo : ∀ {n : Nat}, n < 100 → (digits 2 n).length = 2 :=
    fun h => length_digits (show 0 < 2 by decide) h
  have hyear : (year t.date.year).length = 4 := by
    rw [year, if_pos hy]
    exact length_digits (by decide) (by omega)
  have hzone : (zone t.offset).length = 5 := by
    simp [zone, htwo (show offsetMinutes t.offset / 60 < 100 by omega),
      htwo (show offsetMinutes t.offset % 60 < 100 by omega)]
  have hheader : header.length = 11 := rfl
  have hcomma : (Bytes.ofAscii ", ").length = 2 := rfl
  simp [record, body, hheader, hcomma, length_name_weekday hweekday,
    length_name_month (show t.date.month - 1 < 12 by omega), htwo hhour, htwo hminute, htwo hsecond,
    htwo (show t.date.day < 100 by omega), hyear, hzone]

theorem of_make {seconds : Int} {nanoseconds : Nat} {offset : Int}
    (h : ZonedTime.make seconds nanoseconds offset = .ok t) :
    t = ⟨seconds, nanoseconds, offset⟩ ∧ offset.natAbs < 86400 := by
  unfold ZonedTime.make at h
  split at h
  case isTrue => cases h
  case isFalse =>
    split at h
    case isTrue => cases h
    case isFalse ho =>
      cases h
      exact ⟨rfl, Nat.lt_of_not_le ho⟩

/-- Time records and directives open differently. -/
theorem parse?_record (t : ZonedTime) : Directive.parse? (record t).bytes = none := by
  refine Option.eq_none_iff_forall_not_mem.mpr fun d hd => ?_
  obtain ⟨i, o, h⟩ := Directive.parse?_eq_some_iff.mp hd
  have hhead := congrArg List.head? h.form
  have hr : (record t).bytes.head? = some 116 := rfl
  rw [hr] at hhead
  exact absurd hhead (by simp [Directive.header, Bytes.ofAscii, Bytes.ofChars])

structure Identifies (t : ZonedTime) : Prop where
  line : (record t).bytes.IsLine
  header : header <+: (record t).bytes
  /-- Outside leap seconds and at whole minutes, it says which second it is. -/
  reads : t.nanoseconds < 1000000000 → 60 ∣ t.offset → ∃ r, read? (record t).bytes = some r ∧
    r.Sound ∧ r.seconds = t.seconds ∧ 60 * r.offset = t.offset
  distinct : t.nanoseconds < 1000000000 → 60 ∣ t.offset → ∀ seconds nanoseconds t',
    ZonedTime.make seconds nanoseconds t.offset = .ok t' → nanoseconds < 1000000000 →
    seconds ≠ t.seconds → record t' ≠ record t
  length : 0 ≤ t.date.year ∧ t.date.year ≤ 9999 → (record t).bytes.length = 43
  plain : Directive.parse? (record t).bytes = none

theorem reads_of_make {seconds : Int} {nanoseconds : Nat} {offset : Int}
    (h : ZonedTime.make seconds nanoseconds offset = .ok t) (hn : nanoseconds < 1000000000)
    (ho : 60 ∣ offset) : ∃ r, read? (record t).bytes = some r ∧ r.Sound ∧ r.seconds = seconds ∧
      60 * r.offset = offset := by
  obtain ⟨rfl, hlt⟩ := of_make h
  obtain ⟨minutes, rfl⟩ := ho
  obtain ⟨r, hr, hs, hseconds, rfl⟩ := ofFields?_fields (t := ⟨seconds, nanoseconds, 60 * minutes⟩)
    hn rfl (by omega)
  exact ⟨r, by rw [read?_record, hr], hs, hseconds, rfl⟩

theorem inRange_iff {seconds : Int} {nanoseconds : Nat} :
    ZonedTime.InRange seconds nanoseconds ↔
      (-262143 ≤ (Date.ofDayNumber (seconds / 86400)).year ∧
        (Date.ofDayNumber (seconds / 86400)).year ≤ 262142) ∧
      (nanoseconds < 1000000000 ∨ nanoseconds < 2000000000 ∧ seconds % 60 = 59) := by
  have hfirst : Calendar.daysBeforeYear (-262143) = -95746130 := rfl
  have hlast : Calendar.daysBeforeYear 262143 = 95745399 := rfl
  have hle := @Date.le_year_ofDayNumber_iff (-262143) (seconds / 86400)
  have hlt := @Date.le_year_ofDayNumber_iff 262143 (seconds / 86400)
  rw [hfirst] at hle
  rw [hlast] at hlt
  unfold Calendar.epochShift at hle hlt
  unfold ZonedTime.InRange ZonedTime.firstSecond ZonedTime.lastSecond
  omega

/-- Every second of those years, a leap second too, can be shown at every offset of less than a day,
and is identified by its record. -/
theorem record_identifies {seconds : Int} {nanoseconds : Nat} {offset : Int}
    (hy : -262143 ≤ (Date.ofDayNumber (seconds / 86400)).year ∧
      (Date.ofDayNumber (seconds / 86400)).year ≤ 262142)
    (hn : nanoseconds < 1000000000 ∨ nanoseconds < 2000000000 ∧ seconds % 60 = 59)
    (ho : offset.natAbs < 86400) :
    ZonedTime.make seconds nanoseconds offset = .ok ⟨seconds, nanoseconds, offset⟩ ∧
      Identifies ⟨seconds, nanoseconds, offset⟩ := by
  have h : ZonedTime.make seconds nanoseconds offset = .ok ⟨seconds, nanoseconds, offset⟩ := by
    rw [ZonedTime.make, if_neg (not_not_intro (inRange_iff.mpr ⟨hy, hn⟩)),
      if_neg (Nat.not_le_of_lt ho)]
  refine ⟨h, isLine_record _, ⟨_, (List.append_assoc ..).symm⟩, reads_of_make h, ?_,
    length_record (by dsimp only; omega) ho, parse?_record _⟩
  intro hnano hwhole seconds' nanoseconds' t' h' hnano' hne heq
  obtain ⟨r, hr, -, hseconds, -⟩ := reads_of_make h hnano hwhole
  obtain ⟨r', hr', -, hseconds', -⟩ := reads_of_make h' hnano' hwhole
  rw [heq, hr] at hr'
  obtain rfl := Option.some.inj hr'
  exact hne (hseconds'.symm.trans hseconds)

/-- An instant in a leap year, shown two hours east of Greenwich. -/
theorem record_identifies_march :
    ZonedTime.make 1709615289 0 7200 = .ok ⟨1709615289, 0, 7200⟩ ∧
      Identifies ⟨1709615289, 0, 7200⟩ :=
  record_identifies (by decide) (by decide) (by decide)

example : read? (Bytes.ofAscii "timestamp: Tue, 05 Mar 2024 07:08:09 +0200\n") =
    some ⟨2, ⟨2024, 3, 5⟩, 7, 8, 9, 120⟩ := by
  decide

end CommandLog.Timestamp
