import Mathlib.Data.Int.SuccPred
import Mathlib.Data.Int.ConditionallyCompleteOrder

/-!
# Days of the proleptic Gregorian calendar

Days are numbered from 1 January 1970. Years are taken to begin in March, so that the leap day is
the last one of its year. Months are counted on from March of the year 0.
-/

namespace CivilDays

/-- The days from 1 March of the year 0 to 1 March of `year`. -/
def yearStart (year : ℤ) : ℤ := 365 * year + year / 4 - year / 100 + year / 400

/-- The days from 1 March of the year 0 to the first day of month `k`. -/
def monthStart (k : ℤ) : ℤ := yearStart (k / 12) + (153 * (k % 12) + 2) / 5

/-- The number of a day. Months are counted from January as 0, and a day beyond the end of its
month runs on into the next one. -/
def dayNumber (year : ℤ) (month : ℕ) (day : ℤ) : ℤ :=
  monthStart (12 * year + month - 2) + day - 719469

structure Date where
  year : ℤ
  month : ℕ
  day : ℤ
deriving DecidableEq, Repr

/-- The year from March on that day `z` is in, and the day of that year. -/
def yearOf (z : ℤ) : ℤ × ℤ :=
  let era := z / 146097
  let dayOfEra := z % 146097
  let century := min (dayOfEra / 36524) 3
  let dayOfCentury := dayOfEra - 36524 * century
  let fourth := dayOfCentury / 1461
  let year := min (dayOfCentury % 1461 / 365) 3
  (400 * era + 100 * century + 4 * fourth + year, dayOfCentury % 1461 - 365 * year)

/-- The date of a day. -/
def civil (n : ℤ) : Date :=
  let (year, dayOfYear) := yearOf (n + 719468)
  let month := (5 * dayOfYear + 2) / 153
  let k := 12 * year + month + 2
  ⟨k / 12, (k % 12).toNat, dayOfYear - (153 * month + 2) / 5 + 1⟩

example : civil 0 = ⟨1970, 0, 1⟩ ∧ civil (-1) = ⟨1969, 11, 31⟩ ∧ civil 11016 = ⟨2000, 1, 29⟩ := by
  decide

theorem yearStart_parts (era century fourth year : ℤ) (hc : 0 ≤ century ∧ century ≤ 3)
    (hf : 0 ≤ fourth ∧ fourth ≤ 24) (hy : 0 ≤ year ∧ year ≤ 3) :
    yearStart (400 * era + 100 * century + 4 * fourth + year) =
      146097 * era + 36524 * century + 1461 * fourth + 365 * year := by
  unfold yearStart
  omega

theorem yearStart_lt_succ (year : ℤ) : yearStart year + 365 ≤ yearStart (year + 1) := by
  unfold yearStart
  omega

theorem yearOf_spec (z : ℤ) :
    yearStart (yearOf z).1 + (yearOf z).2 = z ∧ 0 ≤ (yearOf z).2 ∧ (yearOf z).2 ≤ 365 ∧
      z < yearStart ((yearOf z).1 + 1) := by
  simp only [yearOf]
  generalize hera : z / 146097 = era
  generalize hday : z % 146097 = dayOfEra
  generalize hcentury : min (dayOfEra / 36524) 3 = century
  generalize hfourth : (dayOfEra - 36524 * century) / 1461 = fourth
  generalize hrest : (dayOfEra - 36524 * century) % 1461 = rest
  generalize hyear : min (rest / 365) 3 = year
  have hc : 0 ≤ century ∧ century ≤ 3 := by omega
  have hf : 0 ≤ fourth ∧ fourth ≤ 24 := by omega
  have hy : 0 ≤ year ∧ year ≤ 3 := by omega
  have hstart := yearStart_parts era century fourth year hc hf hy
  have hz : z = 146097 * era + dayOfEra := by omega
  refine ⟨by rw [hstart]; omega, by omega, by omega, ?_⟩
  -- the last year of a fourth, of a century and of an era is the one that may be a day longer
  by_cases hlast : year < 3
  · have hnext := yearStart_parts era century fourth (year + 1) hc hf (by omega)
    rw [show 400 * era + 100 * century + 4 * fourth + year + 1 =
      400 * era + 100 * century + 4 * fourth + (year + 1) by omega, hnext]
    omega
  by_cases hfourthLast : fourth < 24
  · have hnext := yearStart_parts era century (fourth + 1) 0 hc (by omega) (by omega)
    rw [show 400 * era + 100 * century + 4 * fourth + year + 1 =
      400 * era + 100 * century + 4 * (fourth + 1) + 0 by omega, hnext]
    omega
  by_cases hcenturyLast : century < 3
  · have hnext := yearStart_parts era (century + 1) 0 0 (by omega) (by omega) (by omega)
    rw [show 400 * era + 100 * century + 4 * fourth + year + 1 =
      400 * era + 100 * (century + 1) + 4 * 0 + 0 by omega, hnext]
    omega
  · have hnext := yearStart_parts (era + 1) 0 0 0 (by omega) (by omega) (by omega)
    rw [show 400 * era + 100 * century + 4 * fourth + year + 1 =
      400 * (era + 1) + 100 * 0 + 4 * 0 + 0 by omega, hnext]
    omega

theorem monthStart_of (year month : ℤ) (hm : 0 ≤ month ∧ month ≤ 11) :
    monthStart (12 * year + month) = yearStart year + (153 * month + 2) / 5 := by
  rw [monthStart, show (12 * year + month) / 12 = year by omega,
    show (12 * year + month) % 12 = month by omega]

theorem monthStart_le_succ (k : ℤ) : monthStart k ≤ monthStart (k + 1) := by
  obtain ⟨year, month, rfl, hm⟩ : ∃ year month, k = 12 * year + month ∧ 0 ≤ month ∧ month ≤ 11 :=
    ⟨k / 12, k % 12, by omega, by omega⟩
  rw [monthStart_of year month hm]
  by_cases hlast : month = 11
  · have hnext := yearStart_lt_succ year
    rw [show 12 * year + month + 1 = 12 * (year + 1) + 0 by omega,
      monthStart_of (year + 1) 0 (by omega)]
    omega
  · rw [add_assoc, monthStart_of year (month + 1) (by omega)]
    omega

theorem monthStart_mono : Monotone monthStart := monotone_int_of_le_succ monthStart_le_succ

/-- The month of a day: the months counted from March of the year 0, and the day in the month. -/
theorem civil_spec (n : ℤ) :
    ∃ k, (civil n).year = k / 12 ∧ ((civil n).month : ℤ) = k % 12 ∧ 1 ≤ (civil n).day ∧
      monthStart (k - 2) + (civil n).day = n + 719469 ∧ n + 719468 < monthStart (k - 2 + 1) := by
  obtain ⟨hsum, hpos, hle, hlt⟩ := yearOf_spec (n + 719468)
  generalize hyear : (yearOf (n + 719468)).1 = year at *
  generalize hday : (yearOf (n + 719468)).2 = day at *
  have hm : 0 ≤ (5 * day + 2) / 153 ∧ (5 * day + 2) / 153 ≤ 11 := by omega
  refine ⟨12 * year + (5 * day + 2) / 153 + 2, ?_, ?_, ?_, ?_, ?_⟩
  · simp [civil, hyear, hday]
  · simp only [civil, hyear, hday]
    omega
  · simp only [civil, hday]
    omega
  · rw [show 12 * year + (5 * day + 2) / 153 + 2 - 2 = 12 * year + (5 * day + 2) / 153 by omega,
      monthStart_of _ _ hm]
    simp only [civil, hday]
    omega
  · rw [show 12 * year + (5 * day + 2) / 153 + 2 - 2 + 1 =
      12 * year + ((5 * day + 2) / 153 + 1) by omega]
    by_cases hlast : (5 * day + 2) / 153 = 11
    · rw [hlast, show 12 * year + (11 + 1) = 12 * (year + 1) + 0 by omega,
        monthStart_of _ _ (by omega)]
      omega
    · rw [monthStart_of _ _ (by omega)]
      omega

theorem dayNumber_civil (n : ℤ) : dayNumber (civil n).year (civil n).month (civil n).day = n := by
  obtain ⟨k, hyear, hmonth, -, hstart, -⟩ := civil_spec n
  rw [dayNumber, hyear, hmonth, show 12 * (k / 12) + k % 12 - 2 = k - 2 by omega]
  omega

/-- A day is before every month that begins after its own month does. -/
theorem lt_dayNumber_of_later (n : ℤ) (year : ℤ) (month : ℕ) (day : ℤ) (hday : 1 ≤ day)
    (hlater : 12 * (civil n).year + (civil n).month < 12 * year + month) :
    n < dayNumber year month day := by
  obtain ⟨k, hyear, hmonth, -, -, hlt⟩ := civil_spec n
  rw [hyear, hmonth] at hlater
  have hmono : monthStart (k - 2 + 1) ≤ monthStart (12 * year + month - 2) :=
    monthStart_mono (by omega)
  unfold dayNumber
  omega

end CivilDays
