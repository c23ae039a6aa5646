/-
The proleptic Gregorian calendar over all the integers: day 0 is 1970-01-01, a Thursday.

- `yearStart`: the first day of a year, fixed by `yearStart_epoch` and `yearStart_succ`. `monthStart`: the days of a year
  before a month, the months counted from 0.
- `Date`: a year, a month and a day of it that there is; `Date.number` its day. `Date.number_inj`: no day is two dates.
- `IsoWeek n year week day`: day `n` in the calendar of weeks, which belong to the year their Thursday is in.
- `WeekOfYear first n week`: the week of the year where the first week begins on the first such weekday.
-/
import Mathlib.Tactic

namespace Omnidroid.Calendar

variable {y y' n : ℤ} {m m' : ℕ}

def Leap (y : ℤ) : Prop := y % 4 = 0 ∧ y % 100 ≠ 0 ∨ y % 400 = 0

instance (y : ℤ) : Decidable (Leap y) := inferInstanceAs (Decidable (_ ∨ _))

def yearLength (y : ℤ) : ℤ := if Leap y then 366 else 365

def yearStart (y : ℤ) : ℤ := 365 * (y - 1970) + ((y - 1) / 4 - (y - 1) / 100 + (y - 1) / 400) - 477

theorem yearStart_epoch : yearStart 1970 = 0 := by decide

theorem yearStart_succ (y : ℤ) : yearStart (y + 1) = yearStart y + yearLength y := by
  by_cases h : Leap y
  · rw [yearLength, if_pos h]
    unfold yearStart
    unfold Leap at h
    omega
  · rw [yearLength, if_neg h]
    unfold yearStart
    unfold Leap at h
    omega

theorem yearLength_pos (y : ℤ) : 365 ≤ yearLength y := by
  unfold yearLength
  split <;> omega

theorem yearLength_le (y : ℤ) : yearLength y ≤ 366 := by
  unfold yearLength
  split <;> omega

theorem yearStart_lt (h : y < y') : yearStart y + yearLength y ≤ yearStart y' := by
  rw [← yearStart_succ]
  unfold yearStart
  omega

/-- a day is in one year -/
theorem year_unique (h : yearStart y ≤ n ∧ n < yearStart y + yearLength y)
    (h' : yearStart y' ≤ n ∧ n < yearStart y' + yearLength y') : y = y' := by
  rcases lt_trichotomy y y' with hlt | rfl | hlt
  · have := yearStart_lt hlt
    omega
  · rfl
  · have := yearStart_lt hlt
    omega

/-! ## Months -/

def monthLength (y : ℤ) : ℕ → ℤ
  | 1 => if Leap y then 29 else 28
  | 3 | 5 | 8 | 10 => 30
  | _ => 31

def monthStart (y : ℤ) (m : ℕ) : ℤ := ((List.range m).map (monthLength y)).sum

theorem monthStart_succ (y : ℤ) (m : ℕ) : monthStart y (m + 1) = monthStart y m + monthLength y m := by
  rw [monthStart, List.range_succ, List.map_append, List.sum_append, monthStart]
  simp

theorem monthLength_pos (y : ℤ) (m : ℕ) : 28 ≤ monthLength y m := by
  unfold monthLength
  split
  · split <;> omega
  all_goals omega

theorem monthStart_mono (y : ℤ) (h : m ≤ m') : monthStart y m ≤ monthStart y m' := by
  induction h with
  | refl => exact le_refl _
  | step _ ih =>
    have := monthLength_pos y ‹_›
    rw [monthStart_succ]
    omega

/-- the twelve months are the year -/
theorem monthStart_year (y : ℤ) : monthStart y 12 = yearLength y := by
  simp only [monthStart_succ, monthLength, yearLength]
  split <;> simp [monthStart]

/-- the days before each month, by whether the leap day is among them -/
theorem monthStart_eq (y : ℤ) (hm : m < 12) :
    monthStart y m =
      [0, 31, 59, 90, 120, 151, 181, 212, 243, 273, 304, 334].getD m 0 + if Leap y ∧ 1 < m then 1 else 0 := by
  interval_cases m <;> by_cases hy : Leap y <;> simp [monthStart, monthLength, hy, List.range_succ]

/-! ## Dates -/

/-- a date: the month counts from 0, the day from 1 -/
structure Date where
  year : ℤ
  month : ℕ
  day : ℤ
  month_lt : month < 12
  day_pos : 1 ≤ day
  day_le : day ≤ monthLength year month

/-- its day of the year, from 0 -/
def Date.yday (d : Date) : ℤ := monthStart d.year d.month + (d.day - 1)

def Date.number (d : Date) : ℤ := yearStart d.year + d.yday

theorem Date.yday_bounds (d : Date) : 0 ≤ d.yday ∧ d.yday < yearLength d.year := by
  have h₀ := monthStart_mono d.year (Nat.zero_le d.month)
  have h₁ := monthStart_mono d.year (show d.month + 1 ≤ 12 from d.month_lt)
  have h₂ := d.day_pos
  have h₃ := d.day_le
  rw [monthStart_succ, monthStart_year] at h₁
  have hzero : monthStart d.year 0 = 0 := rfl
  unfold Date.yday
  omega

theorem Date.year_bounds (d : Date) : yearStart d.year ≤ d.number ∧ d.number < yearStart d.year + yearLength d.year := by
  have := d.yday_bounds
  unfold Date.number
  omega

theorem Date.number_inj {d d' : Date} (h : d.number = d'.number) : d = d' := by
  have hy : d.year = d'.year := year_unique d.year_bounds (h ▸ d'.year_bounds)
  obtain ⟨y, m, a, hm, ha, hle⟩ := d
  obtain ⟨y', m', a', hm', ha', hle'⟩ := d'
  obtain rfl : y = y' := hy
  simp only [Date.number, Date.yday] at h
  have hmonth : m = m' := by
    rcases lt_trichotomy m m' with hlt | rfl | hlt
    · have := monthStart_mono y (show m + 1 ≤ m' from hlt)
      rw [monthStart_succ] at this
      omega
    · rfl
    · have := monthStart_mono y (show m' + 1 ≤ m from hlt)
      rw [monthStart_succ] at this
      omega
  subst hmonth
  obtain rfl : a = a' := by omega
  rfl

/-! ## Weeks -/

/-- the weekday, Sunday 0 -/
def weekday (n : ℤ) : ℤ := (n + 4) % 7

/-- the Thursday of the week of a day, weeks beginning on Mondays -/
def thursday (n : ℤ) : ℤ := n - (n + 3) % 7 + 3

structure IsoWeek (n year week day : ℤ) : Prop where
  year_le : yearStart year ≤ thursday n
  lt_year : thursday n < yearStart year + yearLength year
  week : week = (thursday n - yearStart year) / 7 + 1
  day : day = (n + 3) % 7 + 1

theorem IsoWeek.bounds {year week day : ℤ} (h : IsoWeek n year week day) :
    1 ≤ week ∧ week ≤ 53 ∧ 1 ≤ day ∧ day ≤ 7 := by
  obtain ⟨hle, hlt, rfl, rfl⟩ := h
  have := yearLength_le year
  omega

/-- the weeks of the year of day `n` that begin on weekday `first`, counted from the first of them -/
structure WeekOfYear (first n week : ℤ) : Prop where
  counted : ∃ y s, yearStart y ≤ n ∧ n < yearStart y + yearLength y ∧ yearStart y ≤ s ∧ s < yearStart y + 7 ∧
    weekday s = first ∧ week = if n < s then 0 else (n - s) / 7 + 1

theorem WeekOfYear.bounds {first week : ℤ} (h : WeekOfYear first n week) : 0 ≤ week ∧ week ≤ 53 := by
  obtain ⟨y, s, hle, hlt, hs, -, -, rfl⟩ := h.counted
  have := yearLength_le y
  split <;> omega

end Omnidroid.Calendar
