import Mathlib

/-!
# Instants

`time.Time` is an instant on the time line, here the number of nanoseconds since the Unix epoch.
Go has two "empty" instants that differ: the zero value `time.Time{}` lies in year 1, while a
missing protobuf timestamp reads as the epoch. Nothing in the store depends on the location a
`time.Time` carries, so instants have none; the server's zone is an argument where it matters.
-/

namespace Dkron

/-- An instant of `time.Time`, in nanoseconds since the Unix epoch. -/
abbrev Time := Int

/-- `time.Time{}`: midnight, January 1 of year 1. -/
def zeroTime : Time := -62135596800 * 10 ^ 9

/-- `t.UnixNano()`, an `int64` that wraps outside the years 1678 to 2262. -/
def unixNano (t : Time) : Int := Int.bmod t (2 ^ 64)

/-- A `time.Location`: the offset from UTC in force at an instant. -/
abbrev Zone := Time → Int

/-- A `*timestamppb.Timestamp`, which may be nil. -/
abbrev Timestamp := Option Time

/-- `AsTime`, on a nil message the epoch. -/
def asTime (ts : Timestamp) : Time := ts.getD 0

@[simp] theorem asTime_some (t : Time) : asTime (some t) = t := rfl

/-! ## `ntime.NullableTime` -/

/-- A time that may have no value set. -/
abbrev NullableTime := Option Time

/-- `NullableTime.After`: no value is after nothing, and any value is after no value. -/
def NullableTime.after : NullableTime → NullableTime → Bool
  | none, _ => false
  | some _, none => true
  | some t, some u => u < t

@[simp] theorem NullableTime.after_self (t : NullableTime) : NullableTime.after t t = false := by
  cases t <;> simp [NullableTime.after]

/-! ## Calendar days -/

/-- The nanoseconds of `24 * time.Hour`. -/
def dayNanos : Int := 86400 * 10 ^ 9

/-- `t.UTC().Truncate(24 * time.Hour)`. -/
def truncateDay (t : Time) : Time := t / dayNanos * dayNanos

/-- Year, month and day of month of the given number of days since the epoch, in the proleptic
Gregorian calendar. Years are counted from March, so that the leap day comes last. -/
def civil (days : Int) : Int × Nat × Nat :=
  let z := days + 719468
  let era := z / 146097
  let doe := (z % 146097).toNat
  let yoe := (doe - doe / 1460 + doe / 36524 - doe / 146096) / 365
  let doy := doe - (365 * yoe + yoe / 4 - yoe / 100)
  let mp := (5 * doy + 2) / 153
  let month := if mp < 10 then mp + 3 else mp - 9
  let year := (yoe : Int) + era * 400 + if month ≤ 2 then 1 else 0
  (year, month, doy - (153 * mp + 2) / 5 + 1)

/-- `t.UTC().Year()`. -/
def year (t : Time) : Int := (civil (t / dayNanos)).1

/-- A decimal number padded with zeros to the given width. -/
def padded (width n : Nat) : String :=
  let digits := (Nat.repr n).toList
  String.ofList (List.replicate (width - digits.length) '0' ++ digits)

/-- `Format("2006-01-02")` of the given day. -/
def formatDay (days : Int) : String :=
  let (y, m, d) := civil days
  (if y < 0 then "-" else "") ++ padded 4 y.natAbs ++ "-" ++ padded 2 m ++ "-" ++ padded 2 d

/-- `formatStatDate`: the date key of the stats storage. -/
def formatStatDate (t : Time) : String := formatDay (truncateDay t / dayNanos)

theorem truncateDay_div (t : Time) : truncateDay t / dayNanos = t / dayNanos :=
  Int.mul_ediv_cancel _ (by decide)

theorem formatStatDate_truncateDay (t : Time) :
    formatStatDate (truncateDay t) = formatStatDate t := by
  unfold formatStatDate
  rw [truncateDay_div (truncateDay t)]

example : formatStatDate (1735689599 * 10 ^ 9) = "2024-12-31" := by decide
example : formatStatDate zeroTime = "0001-01-01" := by decide

end Dkron
