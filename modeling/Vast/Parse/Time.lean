import Mathlib.Tactic.IntervalCases

/-! # Days of a date

The timestamp parser counts the days of a civil date from 1970-01-01. It lets years begin in
March, so that a leap day is the last day of a year, and groups them into eras of 400 years.
-/

namespace Vast.Parse

/-- The conversions to unsigned numbers and back do not change the value. -/
def toDays (year : UInt16) (month day : UInt8) : Int :=
  let y : Int := year.toNat - if month.toNat ≤ 2 then 1 else 0
  let m : Int := month.toNat
  let d : Int := day.toNat
  let era := (if 0 ≤ y then y else y - 399).tdiv 400
  let yoe := y - era * 400
  let doy := (153 * (if 2 < m then m - 3 else m + 9) + 2) / 5 + d - 1
  let doe := yoe * 365 + yoe / 4 - yoe / 100 + doy
  era * 146097 + doe - 719468

/-! ## The Gregorian calendar -/

def monthLength (year month : Nat) : Nat :=
  if month = 2 then
    if year % 4 = 0 ∧ (year % 100 ≠ 0 ∨ year % 400 = 0) then 29 else 28
  else if month = 4 ∨ month = 6 ∨ month = 9 ∨ month = 11 then 30
  else 31

abbrev IsDate (year month day : Nat) : Prop :=
  1 ≤ month ∧ month ≤ 12 ∧ 1 ≤ day ∧ day ≤ monthLength year month

def nextDate (year month day : Nat) : Nat × Nat × Nat :=
  if day < monthLength year month then (year, month, day + 1)
  else if month < 12 then (year, month + 1, 1)
  else (year + 1, 1, 1)

/-- The days of the years before, with a leap day every 4 years except every 100 but not every
400 years, and the days of the year. -/
theorem toDays_eq (year : UInt16) (month day : UInt8) {y : Int}
    (hy : y = year.toNat - if month.toNat ≤ 2 then 1 else 0) :
    toDays year month day = y * 365 + y / 4 - y / 100 + y / 400 +
      (153 * (if 2 < month.toNat then month.toNat - 3 else month.toNat + 9 : Int) + 2) / 5 +
        day.toNat - 719469 := by
  have hera : (if 0 ≤ y then y else y - 399).tdiv 400 = y / 400 := by
    split
    next hpos => exact Int.tdiv_eq_ediv_of_nonneg hpos
    next hneg =>
      have hlast : y = -1 := by split at hy <;> omega
      rw [hlast]
      decide
  simp only [toDays, ← hy, hera]
  omega

/-- The day number follows the calendar wherever the next date fits the parameters. -/
theorem toDays_next : toDays 1970 1 1 = 0 ∧
    ∀ (year year' : UInt16) (month day month' day' : UInt8),
      IsDate year.toNat month.toNat day.toNat →
      nextDate year.toNat month.toNat day.toNat = (year'.toNat, month'.toNat, day'.toNat) →
        toDays year' month' day' = toDays year month day + 1 := by
  refine ⟨by decide, fun year year' month day month' day' hdate hnext => ?_⟩
  rw [toDays_eq year month day rfl, toDays_eq year' month' day' rfl]
  obtain ⟨hmin, hmax, -, hday⟩ := hdate
  unfold nextDate at hnext
  generalize year.toNat = y, month.toNat = m, day.toNat = d, year'.toNat = y', month'.toNat = m',
    day'.toNat = d' at *
  split at hnext
  next =>
    cases hnext
    omega
  next hlast =>
    -- The date is the last one of its month.
    obtain rfl : d = monthLength y m := by omega
    unfold monthLength
    split at hnext
    next =>
      cases hnext
      interval_cases m <;> simp <;> omega
    next =>
      cases hnext
      obtain rfl : m = 12 := by omega
      simp
      omega

/-- The first of March follows the leap day. -/
theorem toDays_leap_day : toDays 2000 3 1 = toDays 2000 2 29 + 1 :=
  toDays_next.2 2000 2000 2 29 3 1 (by decide) (by decide)

end Vast.Parse
