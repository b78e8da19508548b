import Mathlib.Algebra.Order.Ring.Int
import Mathlib.Data.Int.ConditionallyCompleteOrder
import Mathlib.Data.Int.SuccPred
import Mathlib.Order.SuccPred.Archimedean
import Mathlib.Tactic.IntervalCases

/-!
# The Gregorian Calendar

Days are counted from the first of January 1970, and months one after the other: month `k` is the
month `k % 12 + 1` of the year `k / 12`. Both have no beginning and no end. A day belongs to the
last month that does not begin after it.

## Main results

* `monthStart_succ`: a month is as long as the rule of the leap years says.
* `monthStart_le_iff`: the months that begin up to a day are those up to the month of the day.
* `isGreatest_monthStart`: of every n-th month, the last one that begins up to a day.
-/

namespace Lopata.Gregorian

def isLeap (year : ℤ) : Bool := year % 4 = 0 && (year % 100 ≠ 0 || year % 400 = 0)

/-- The days of a month, from 1 on. -/
def daysInMonth (year month : ℤ) : ℤ :=
  if month = 2 then if isLeap year then 29 else 28
  else if month = 4 ∨ month = 6 ∨ month = 9 ∨ month = 11 then 30
  else 31

/-- The first day of a year, counted from the year 0; a year begins with March, so that the day of
a leap year is its last one. -/
def yearStart (year : ℤ) : ℤ := 365 * year + year / 4 - year / 100 + year / 400

/-- The year that a day falls in. -/
def yearOf (day : ℤ) : ℤ :=
  let year := (400 * day - 396) / 146097
  if yearStart (year + 1) ≤ day then year + 1 else year

/-- The first day of a month. -/
def monthStart (k : ℤ) : ℤ :=
  yearStart ((k - 2) / 12) + (153 * ((k - 2) % 12) + 2) / 5 - 719468

/-- The month of a day. -/
def monthOf (day : ℤ) : ℤ :=
  let year := yearOf (day + 719468)
  12 * year + (5 * (day + 719468 - yearStart year) + 2) / 153 + 2

/-- The day of the week, from Sunday on. -/
def weekdayOf (day : ℤ) : ℤ := (day + 4) % 7

example : monthStart (12 * 1970) = 0 ∧ monthOf 19782 = 12 * 2024 + 1 ∧ weekdayOf 19782 = 4 := by
  decide

/-- The months from January on begin where the ones before them end. -/
theorem monthStart_succ (k : ℤ) :
    monthStart (k + 1) = monthStart k + daysInMonth (k / 12) (k % 12 + 1) := by
  obtain ⟨year, month, hk, hlow, hhigh⟩ : ∃ year month, k = 12 * year + month ∧ 0 ≤ month ∧
      month < 12 := ⟨k / 12, k % 12, by omega, by omega, by omega⟩
  have hyear : k / 12 = year := by omega
  have hmonth : k % 12 = month := by omega
  rw [hyear, hmonth]
  subst hk
  simp only [monthStart, yearStart, daysInMonth, isLeap]
  interval_cases month <;> simp <;> grind

theorem daysInMonth_pos (year month : ℤ) : 0 < daysInMonth year month := by
  rw [daysInMonth]
  split_ifs <;> decide

theorem monthStart_strictMono : StrictMono monthStart := by
  refine strictMono_of_lt_add_one fun k _ => ?_
  rw [monthStart_succ]
  exact lt_add_of_pos_right _ (daysInMonth_pos _ _)

theorem yearStart_yearOf_le (day : ℤ) : yearStart (yearOf day) ≤ day := by
  rw [yearOf]
  split
  · assumption
  · rw [yearStart]
    omega

theorem lt_yearStart_yearOf (day : ℤ) : day < yearStart (yearOf day + 1) := by
  simp only [yearOf]
  split
  · simp only [yearStart]
    omega
  · next h => exact not_le.mp h

theorem monthStart_monthOf_le (day : ℤ) : monthStart (monthOf day) ≤ day := by
  have hlow := yearStart_yearOf_le (day + 719468)
  have hhigh := lt_yearStart_yearOf (day + 719468)
  simp only [monthStart, monthOf]
  generalize yearOf (day + 719468) = year at *
  have hyear : yearStart (year + 1) ≤ yearStart year + 366 := by
    simp only [yearStart]
    omega
  obtain ⟨month, hmonth⟩ : ∃ month, month = (5 * (day + 719468 - yearStart year) + 2) / 153 :=
    ⟨_, rfl⟩
  rw [← hmonth]
  have hindex : (12 * year + month + 2 - 2) / 12 = year ∧
      (12 * year + month + 2 - 2) % 12 = month := by omega
  rw [hindex.1, hindex.2]
  omega

theorem lt_monthStart_monthOf (day : ℤ) : day < monthStart (monthOf day + 1) := by
  have hlow := yearStart_yearOf_le (day + 719468)
  have hhigh := lt_yearStart_yearOf (day + 719468)
  simp only [monthStart, monthOf]
  generalize yearOf (day + 719468) = year at *
  have hyear : yearStart (year + 1) ≤ yearStart year + 366 := by
    simp only [yearStart]
    omega
  obtain ⟨month, hmonth⟩ : ∃ month, month = (5 * (day + 719468 - yearStart year) + 2) / 153 :=
    ⟨_, rfl⟩
  rw [← hmonth]
  -- the last month of a year, which is February here, ends with the year
  rcases lt_or_ge month 11 with hinner | hlast
  · have hindex : (12 * year + month + 2 + 1 - 2) / 12 = year ∧
        (12 * year + month + 2 + 1 - 2) % 12 = month + 1 := by omega
    rw [hindex.1, hindex.2]
    omega
  · have hmonth' : month = 11 := by omega
    have hindex : (12 * year + month + 2 + 1 - 2) / 12 = year + 1 ∧
        (12 * year + month + 2 + 1 - 2) % 12 = 0 := by omega
    rw [hindex.1, hindex.2]
    omega

/-- The months that begin up to a day are those up to the month of the day. -/
theorem monthStart_le_iff (k day : ℤ) : monthStart k ≤ day ↔ k ≤ monthOf day := by
  constructor
  · intro h
    exact Int.lt_add_one_iff.mp
      (monthStart_strictMono.lt_iff_lt.mp (h.trans_lt (lt_monthStart_monthOf day)))
  · intro h
    exact (monthStart_strictMono.monotone h).trans (monthStart_monthOf_le day)

theorem monthOf_monthStart (k : ℤ) : monthOf (monthStart k) = k := by
  refine le_antisymm ?_ ((monthStart_le_iff k _).mp le_rfl)
  exact monthStart_strictMono.le_iff_le.mp (monthStart_monthOf_le _)

/-- Of every n-th month, the last one that begins up to a day. -/
theorem isGreatest_monthStart {n : ℤ} (hn : 0 < n) (day : ℤ) :
    IsGreatest {s | (∃ k, n ∣ k ∧ s = monthStart k) ∧ s ≤ day}
      (monthStart (n * (monthOf day / n))) := by
  refine ⟨⟨⟨_, dvd_mul_right n _, rfl⟩, ?_⟩, ?_⟩
  · exact (monthStart_le_iff _ _).mpr (Int.mul_ediv_self_le hn.ne')
  · rintro _ ⟨⟨_, ⟨i, rfl⟩, rfl⟩, hle⟩
    refine monthStart_strictMono.monotone (mul_le_mul_of_nonneg_left ?_ hn.le)
    rw [Int.le_ediv_iff_mul_le hn, mul_comm]
    exact (monthStart_le_iff _ _).mp hle

end Lopata.Gregorian
