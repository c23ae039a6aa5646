/-
`gmtime` and `mktime` (`omni-bionic/src/time.rs`): a count of seconds as a date and a time of day, and back, without a loop.

Every step of the arithmetic is one in 64 bits (32 where the code's is) and fails where it would not fit.
- `gmtime`, `mktime`, `daysFromCivil`: the code.
- `yearOfEra_spec`: the division that finds the year of a day of the 400 years: right for each of these, and monotone.
- `civilFromDays_spec`, `daysFromCivil_spec`: each is the calendar's own count of days, so each undoes the other.
- `gmtime_eq`, `mktime_eq`: what the two answer for every argument.
-/
import Omnidroid.Lib.Answers
import Omnidroid.Lib.Calendar

namespace Omnidroid.Bionic.Time

open Calendar

/-! ## The code -/

def SECONDS_PER_DAY : ℤ := 86400
def DAYS_PER_ERA : ℤ := 146097
/-- from 0000-03-01 to 1970-01-01 -/
def DAYS_ERA_TO_UNIX_EPOCH : ℤ := 719468
/-- a Thursday -/
def UNIX_EPOCH_WEEKDAY : ℤ := 4

/-- the fields of a `struct tm` -/
structure Tm where
  sec : ℤ
  min : ℤ
  hour : ℤ
  mday : ℤ
  mon : ℤ
  year : ℤ
  wday : ℤ
  yday : ℤ
  isdst : ℤ
deriving DecidableEq, Repr

inductive GmtimeError where
  | yearOutOfRange (year : ℤ)
  /-- a step past its type -/
  | overflow
deriving DecidableEq, Repr

inductive MktimeError where
  | outOfRange (year mon : ℤ)
  | overflow
deriving DecidableEq, Repr

section Arithmetic

variable {ε : Type}

def FitsI64 (x : ℤ) : Prop := -2 ^ 63 ≤ x ∧ x < 2 ^ 63

def FitsI32 (x : ℤ) : Prop := -2 ^ 31 ≤ x ∧ x < 2 ^ 31

instance (x : ℤ) : Decidable (FitsI64 x) := inferInstanceAs (Decidable (_ ∧ _))

instance (x : ℤ) : Decidable (FitsI32 x) := inferInstanceAs (Decidable (_ ∧ _))

/-- the result of a step in 64 bits -/
def i64 (e : ε) (x : ℤ) : Except ε ℤ := if FitsI64 x then .ok x else .error e

def i32 (e : ε) (x : ℤ) : Except ε ℤ := if FitsI32 x then .ok x else .error e

/-- `as i32` -/
def asI32 (x : ℤ) : ℤ := (x + 2 ^ 31) % 2 ^ 32 - 2 ^ 31

def floorDiv (e : ε) (numerator denominator : ℤ) : Except ε ℤ :=
  if numerator.tmod denominator ≠ 0 ∧ decide (numerator < 0) ≠ decide (denominator < 0) then
    i64 e (numerator.tdiv denominator - 1)
  else .ok (numerator.tdiv denominator)

end Arithmetic

def isLeap (year : ℤ) : Bool := (year.tmod 4 = 0 ∧ year.tmod 100 ≠ 0) ∨ year.tmod 400 = 0

def DAYS_BEFORE_MONTH : List ℤ := [0, 31, 59, 90, 120, 151, 181, 212, 243, 273, 304, 334]

/-- the year of a day of an era, its years beginning in March -/
def yearOfEra (dayOfEra : ℤ) : Except GmtimeError ℤ := do
  let a ← i64 .overflow (dayOfEra - dayOfEra.tdiv 1460)
  let b ← i64 .overflow (a + dayOfEra.tdiv 36524)
  let c ← i64 .overflow (b - dayOfEra.tdiv 146096)
  pure (c.tdiv 365)

/-- the month and the day of a day of such a year -/
def monthAndDay (dayOfYear : ℤ) : Except GmtimeError (ℤ × ℤ) := do
  let a ← i64 .overflow (5 * dayOfYear)
  let b ← i64 .overflow (a + 2)
  let shiftedMonth := b.tdiv 153
  let c ← i64 .overflow (153 * shiftedMonth)
  let d ← i64 .overflow (c + 2)
  let e ← i64 .overflow (dayOfYear - d.tdiv 5)
  let day ← i64 .overflow (e + 1)
  let month ← i64 .overflow (shiftedMonth + if shiftedMonth < 10 then 3 else -9)
  pure (month, day)

/-- the year, the month from 1 and the day of a day since the epoch -/
def civilFromDays (days : ℤ) : Except GmtimeError (ℤ × ℤ × ℤ) := do
  let shifted ← i64 .overflow (days + DAYS_ERA_TO_UNIX_EPOCH)
  let era ← floorDiv .overflow shifted DAYS_PER_ERA
  let eraDays ← i64 .overflow (era * DAYS_PER_ERA)
  let dayOfEra ← i64 .overflow (shifted - eraDays)
  let yearOfEra ← yearOfEra dayOfEra
  let eraYears ← i64 .overflow (era * 400)
  let year ← i64 .overflow (yearOfEra + eraYears)
  let a ← i64 .overflow (365 * yearOfEra)
  let b ← i64 .overflow (a + yearOfEra.tdiv 4)
  let c ← i64 .overflow (b - yearOfEra.tdiv 100)
  let dayOfYear ← i64 .overflow (dayOfEra - c)
  let (month, day) ← monthAndDay dayOfYear
  let year ← (if month ≤ 2 then i64 .overflow (year + 1) else .ok year)
  pure (year, month, day)

def gmtime (timestamp : ℤ) : Except GmtimeError Tm := do
  let days ← floorDiv .overflow timestamp SECONDS_PER_DAY
  let secondOfDay := timestamp % SECONDS_PER_DAY
  let (year, month, day) ← civilFromDays days
  let tmYear ← i64 .overflow (year - 1900)
  if ¬FitsI32 tmYear then throw (.yearOutOfRange year)
  let epochDays ← i64 .overflow (days + UNIX_EPOCH_WEEKDAY)
  let wday := epochDays % 7
  let monthIndex ← i64 .overflow (month - 1)
  let leapDay := if isLeap year ∧ 2 < month then 1 else 0
  let a ← i32 .overflow (DAYS_BEFORE_MONTH.getD monthIndex.toNat 0 + asI32 day)
  let b ← i32 .overflow (a - 1)
  let yday ← i32 .overflow (b + leapDay)
  pure {
    sec := asI32 (secondOfDay.tmod 60)
    min := asI32 ((secondOfDay.tdiv 60).tmod 60)
    hour := asI32 (secondOfDay.tdiv 3600)
    mday := asI32 day
    mon := asI32 monthIndex
    year := tmYear
    wday := asI32 wday
    yday
    isdst := 0 }

/-- the days since the epoch of a date, its month from 1 and its day any -/
def daysFromCivil (year month day : ℤ) : Except MktimeError ℤ := do
  let year ← (if month ≤ 2 then i64 .overflow (year - 1) else .ok year)
  let era ← floorDiv .overflow year 400
  let eraYears ← i64 .overflow (era * 400)
  let yearOfEra ← i64 .overflow (year - eraYears)
  let shiftedMonth ← i64 .overflow (if 2 < month then month - 3 else month + 9)
  let a ← i64 .overflow (153 * shiftedMonth)
  let b ← i64 .overflow (a + 2)
  let c ← i64 .overflow (b.tdiv 5 + day)
  let dayOfYear ← i64 .overflow (c - 1)
  let d ← i64 .overflow (yearOfEra * 365)
  let e ← i64 .overflow (d + yearOfEra.tdiv 4)
  let f ← i64 .overflow (e - yearOfEra.tdiv 100)
  let dayOfEra ← i64 .overflow (f + dayOfYear)
  let eraDays ← i64 .overflow (era * DAYS_PER_ERA)
  let g ← i64 .overflow (eraDays + dayOfEra)
  i64 .overflow (g - DAYS_ERA_TO_UNIX_EPOCH)

def mktime (tm : Tm) : Except MktimeError (ℤ × Tm) := do
  let fail := MktimeError.outOfRange tm.year tm.mon
  let years ← i64 fail (tm.year * 12)
  let months ← i64 fail (years + tm.mon)
  let carried ← floorDiv .overflow months 12
  let year ← i64 fail (carried + 1900)
  let carried' ← i64 .overflow (carried * 12)
  let month ← i64 .overflow (months - carried')
  let month ← i64 .overflow (month + 1)
  let first ← daysFromCivil year month 1
  let a ← i64 fail (first + tm.mday)
  let days ← i64 fail (a - 1)
  let b ← i64 fail (days * SECONDS_PER_DAY)
  let hours ← i64 fail (tm.hour * 3600)
  let c ← i64 fail (b + hours)
  let minutes ← i64 fail (tm.min * 60)
  let d ← i64 fail (c + minutes)
  let seconds ← i64 fail (d + tm.sec)
  match gmtime seconds with
  | .ok normalised => pure (seconds, normalised)
  | .error _ => throw fail

/-! ## Steps that fit -/

section Steps

variable {ε α : Type} {e : ε} {x a b : ℤ}

theorem i64_bind {k : ℤ → Except ε α} (h : FitsI64 x) : (i64 e x >>= k) = k x := by
  rw [i64, if_pos h]
  rfl

theorem ok_bind {β : Type} (c : β) (k : β → Except ε α) : (Except.ok c >>= k) = k c := rfl

theorem i32_bind {k : ℤ → Except ε α} (h : FitsI32 x) : (i32 e x >>= k) = k x := by
  rw [i32, if_pos h]
  rfl

theorem asI32_eq (h : FitsI32 x) : asI32 x = x := by
  unfold FitsI32 at h
  unfold asI32
  omega

/-- it rounds down -/
theorem floorDiv_eq (hb : 0 < b) (ha : FitsI64 a) : floorDiv e a b = .ok (a / b) := by
  have hdvd : a.tmod b = 0 ↔ b ∣ a := Int.dvd_iff_tmod_eq_zero.symm
  have hsign : b.sign = 1 := Int.sign_eq_one_of_pos hb
  have hle : -2 ^ 63 ≤ a / b := by
    rw [Int.le_ediv_iff_mul_le hb]
    unfold FitsI64 at ha
    nlinarith
  have hlt : a / b < 2 ^ 63 := by
    rw [Int.ediv_lt_iff_lt_mul hb]
    unfold FitsI64 at ha
    nlinarith
  unfold floorDiv
  rw [Int.tdiv_eq_ediv, hsign]
  by_cases hneg : a < 0
  · by_cases hd : b ∣ a
    · rw [if_neg (fun h => h.1 (hdvd.2 hd)), if_pos (.inr hd), Int.add_zero]
    · have hboth : ¬(0 ≤ a ∨ b ∣ a) := fun h => h.elim (not_le.2 hneg) hd
      rw [if_pos ⟨fun h => hd (hdvd.1 h), by simp [hneg, not_lt.2 hb.le]⟩, if_neg hboth, i64]
      rw [Int.add_sub_cancel, if_pos ⟨hle, hlt⟩]
  · rw [if_neg (fun h => h.2 (by simp [hneg, not_lt.2 hb.le])), if_pos (.inl (not_lt.1 hneg)), Int.add_zero]

end Steps

/-! ## The years of an era -/

section Era

variable {y d : ℤ}

/-- the first day of a year that begins in March, from 0000-03-01 -/
def marchStart (y : ℤ) : ℤ := 365 * y + y / 4 - y / 100 + y / 400

/-- 365 times the year of a day, and the days of the year -/
def yearDays (d : ℤ) : ℤ := d - d / 1460 + d / 36524 - d / 146096

theorem marchStart_eq (y : ℤ) : marchStart y - 719468 = yearStart y + monthStart y 2 := by
  rw [monthStart_eq y (by decide)]
  unfold marchStart yearStart Leap
  simp only [List.getD_cons_succ, List.getD_cons_zero]
  split <;> omega

theorem yearDays_succ (d : ℤ) : yearDays d ≤ yearDays (d + 1) := by
  unfold yearDays
  omega

theorem yearDays_mono {d' : ℤ} (h : d ≤ d') : yearDays d ≤ yearDays d' := by
  induction d', h using Int.leInduction with
  | base => exact le_refl _
  | succ n _ ih => exact ih.trans (yearDays_succ n)

set_option maxRecDepth 50000 in
/-- at the first and the last day of each of the 400 years -/
theorem yearDays_ends : ∀ y : Fin 400, 365 * (y : ℤ) ≤ yearDays (marchStart y) ∧
    yearDays (marchStart (y + 1) - 1) < 365 * ((y : ℤ) + 1) := by
  decide

theorem year_exists (n : ℕ) (h₀ : 0 ≤ d) (hn : d < marchStart n) :
    ∃ y : ℕ, y < n ∧ marchStart y ≤ d ∧ d < marchStart (y + 1) := by
  induction n with
  | zero =>
    have : marchStart (0 : ℕ) = 0 := rfl
    omega
  | succ n ih =>
    by_cases h : d < marchStart n
    · obtain ⟨y, hy, hd⟩ := ih h
      exact ⟨y, hy.trans (Nat.lt_succ_self n), hd⟩
    · exact ⟨n, Nat.lt_succ_self n, not_lt.1 h, by simpa using hn⟩

theorem yearDays_div (h₀ : 0 ≤ d) (hd : d < 146097) :
    0 ≤ yearDays d / 365 ∧ yearDays d / 365 < 400 ∧
      marchStart (yearDays d / 365) ≤ d ∧ d < marchStart (yearDays d / 365 + 1) := by
  obtain ⟨y, hy, hle, hlt⟩ := year_exists 400 h₀ hd
  obtain ⟨hfirst, hlast⟩ := yearDays_ends ⟨y, hy⟩
  have hlow := yearDays_mono hle
  have hhigh := yearDays_mono (show d ≤ marchStart (y + 1) - 1 by omega)
  have heq : yearDays d / 365 = y := by
    simp only at hfirst hlast
    omega
  rw [heq]
  exact ⟨by omega, by omega, hle, hlt⟩

theorem marchStart_era (y e : ℤ) : marchStart (y + e * 400) = marchStart y + e * 146097 := by
  unfold marchStart
  omega

theorem marchStart_succ (y : ℤ) : marchStart (y + 1) = marchStart y + if Leap (y + 1) then 366 else 365 := by
  by_cases h : Leap (y + 1)
  · rw [if_pos h]
    unfold Leap at h
    unfold marchStart
    omega
  · rw [if_neg h]
    unfold Leap at h
    unfold marchStart
    omega

/-- the months from March to December: 153 days in every five -/
theorem march_month (y : ℤ) {m : ℕ} (hm : m < 10) :
    yearStart y + monthStart y (m + 2) = marchStart y - 719468 + (153 * m + 2) / 5 ∧
      monthLength y (m + 2) = (153 * (m + 1) + 2) / 5 - (153 * m + 2) / 5 := by
  rw [marchStart_eq, monthStart_eq y (by omega), monthStart_eq y (by decide)]
  interval_cases m <;> simp [monthLength] <;> omega

/-- January and February, of the year after -/
theorem january_month (y : ℤ) {m : ℕ} (hm : m < 2) :
    yearStart (y + 1) + monthStart (y + 1) m = marchStart y - 719468 + (153 * (m + 10) + 2) / 5 := by
  have hfeb : monthStart y 2 = 59 + if Leap y then 1 else 0 := by
    rw [monthStart_eq y (by decide)]
    simp
  rw [marchStart_eq, yearStart_succ, monthStart_eq _ (by omega), hfeb, yearLength]
  interval_cases m <;> by_cases h : Leap y <;> simp [h] <;> omega

/-- the date of a day of such a year -/
theorem march_date (y doy : ℤ) (h₀ : 0 ≤ doy) (h : marchStart y + doy < marchStart (y + 1)) :
    ∃ d : Date, d.number = marchStart y - 719468 + doy ∧
      d.year = (if (5 * doy + 2) / 153 < 10 then y else y + 1) ∧
      (d.month : ℤ) + 1 = (5 * doy + 2) / 153 + (if (5 * doy + 2) / 153 < 10 then 3 else -9) ∧
      d.day = doy - (153 * ((5 * doy + 2) / 153) + 2) / 5 + 1 := by
  rw [marchStart_succ] at h
  have hlen : doy < 365 + if Leap (y + 1) then 1 else 0 := by
    by_cases hy : Leap (y + 1) <;> simp only [hy, if_true, if_false] at h ⊢ <;> omega
  have hdoy : doy < 366 := by
    by_cases hy : Leap (y + 1) <;> simp only [hy, if_true, if_false] at hlen <;> omega
  by_cases hten : (5 * doy + 2) / 153 < 10
  · obtain ⟨m, hm⟩ := Int.eq_ofNat_of_zero_le (show 0 ≤ (5 * doy + 2) / 153 by omega)
    obtain ⟨hfirst, hlast⟩ := march_month y (show m < 10 by omega)
    refine ⟨⟨y, m + 2, doy - (153 * m + 2) / 5 + 1, by omega, by omega, by omega⟩, ?_, ?_, ?_, ?_⟩
    · simp only [Date.number, Date.yday]
      omega
    · rw [if_pos hten]
    · rw [if_pos hten]
      push_cast
      omega
    · rw [hm]
  · obtain ⟨m, hm⟩ := Int.eq_ofNat_of_zero_le (show 0 ≤ (5 * doy + 2) / 153 - 10 by omega)
    have hfirst := january_month y (show m < 2 by omega)
    have hday : doy - (153 * ((m : ℤ) + 10) + 2) / 5 + 1 ≤ monthLength (y + 1) m := by
      rcases (show m = 0 ∨ m = 1 by omega) with rfl | rfl
      · show _ ≤ 31
        omega
      · show _ ≤ if Leap (y + 1) then 29 else 28
        by_cases hy : Leap (y + 1) <;> simp only [hy, if_true, if_false] at hlen ⊢ <;> omega
    refine ⟨⟨y + 1, m, doy - (153 * (m + 10) + 2) / 5 + 1, by omega, by omega, hday⟩, ?_, ?_, ?_, ?_⟩
    · simp only [Date.number, Date.yday]
      omega
    · rw [if_neg hten]
    · rw [if_neg hten]
      show (m : ℤ) + 1 = _
      omega
    · rw [show (5 * doy + 2) / 153 = m + 10 by omega]

end Era

/-! ## The two counts of days -/

section Days

variable {n : ℤ}

theorem yearOfEra_spec (h₀ : 0 ≤ n) (h : n < 146097) : yearOfEra n = .ok (yearDays n / 365) := by
  simp only [yearOfEra, Int.tdiv_eq_ediv_of_nonneg h₀]
  rw [i64_bind (by unfold FitsI64; omega), i64_bind (by unfold FitsI64; omega), i64_bind (by unfold FitsI64; omega)]
  rw [Int.tdiv_eq_ediv_of_nonneg (by omega)]
  rfl

theorem monthAndDay_spec (h₀ : 0 ≤ n) (h : n < 366) :
    monthAndDay n = .ok ((5 * n + 2) / 153 + (if (5 * n + 2) / 153 < 10 then 3 else -9),
      n - (153 * ((5 * n + 2) / 153) + 2) / 5 + 1) := by
  have hmonth : FitsI64 ((5 * n + 2) / 153 + (if (5 * n + 2) / 153 < 10 then 3 else -9)) := by
    unfold FitsI64
    split <;> omega
  unfold monthAndDay
  rw [i64_bind (by unfold FitsI64; omega), i64_bind (by unfold FitsI64; omega)]
  simp only [Int.tdiv_eq_ediv_of_nonneg (show 0 ≤ 5 * n + 2 by omega)]
  rw [i64_bind (by unfold FitsI64; omega), i64_bind (by unfold FitsI64; omega)]
  rw [Int.tdiv_eq_ediv_of_nonneg (by omega)]
  rw [i64_bind (by unfold FitsI64; omega), i64_bind (by unfold FitsI64; omega), i64_bind hmonth]
  rfl

/-- the date of a day -/
theorem civilFromDays_spec (h : -2 ^ 62 ≤ n ∧ n < 2 ^ 62) :
    ∃ d : Date, d.number = n ∧ civilFromDays n = .ok (d.year, d.month + 1, d.day) := by
  obtain ⟨hy₀, hy, hle, hlt⟩ := yearDays_div (d := (n + 719468) % 146097) (by omega) (by omega)
  obtain ⟨y, hyear⟩ : ∃ y, yearDays ((n + 719468) % 146097) / 365 = y := ⟨_, rfl⟩
  rw [hyear] at hy₀ hy hle hlt
  have hera := marchStart_era y ((n + 719468) / 146097)
  have hera' := marchStart_era (y + 1) ((n + 719468) / 146097)
  have hlen := marchStart_succ y
  have hstart : marchStart y = 365 * y + y / 4 - y / 100 := by
    unfold marchStart
    omega
  obtain ⟨d, hnumber, hdyear, hmonth, hday⟩ :=
    march_date (y + (n + 719468) / 146097 * 400) ((n + 719468) % 146097 - marchStart y) (by omega)
      (by rw [show y + (n + 719468) / 146097 * 400 + 1 = y + 1 + (n + 719468) / 146097 * 400 by ring]; omega)
  refine ⟨d, by omega, ?_⟩
  have hlen' : marchStart (y + 1) ≤ marchStart y + 366 := by
    rw [hlen]
    split <;> omega
  have hyears : FitsI64 (y + (n + 719468) / 146097 * 400) := by
    unfold FitsI64
    omega
  unfold civilFromDays DAYS_ERA_TO_UNIX_EPOCH DAYS_PER_ERA
  rw [i64_bind (by unfold FitsI64; omega), floorDiv_eq (by decide) (by unfold FitsI64; omega), ok_bind]
  rw [i64_bind (by unfold FitsI64; omega), i64_bind (by unfold FitsI64; omega)]
  rw [show n + 719468 - (n + 719468) / 146097 * 146097 = (n + 719468) % 146097 by omega]
  rw [yearOfEra_spec (by omega) (by omega), hyear, ok_bind, i64_bind (by unfold FitsI64; omega), i64_bind hyears]
  rw [Int.tdiv_eq_ediv_of_nonneg hy₀, Int.tdiv_eq_ediv_of_nonneg hy₀]
  rw [i64_bind (by unfold FitsI64; omega), i64_bind (by unfold FitsI64; omega), i64_bind (by unfold FitsI64; omega)]
  rw [← hstart, i64_bind (by unfold FitsI64; omega), monthAndDay_spec (by omega) (by omega), ok_bind]
  simp only
  rw [← hmonth, ← hday]
  by_cases hten : (5 * ((n + 719468) % 146097 - marchStart y) + 2) / 153 < 10
  · rw [if_pos hten] at hdyear hmonth
    rw [if_neg (by omega), hdyear]
    rfl
  · rw [if_neg hten] at hdyear hmonth
    rw [if_pos (by omega), i64_bind (by unfold FitsI64; omega), hdyear]
    rfl

/-- the days before a month, its year beginning in March -/
def monthDays (y m : ℤ) : ℤ := marchStart y - 719468 + (153 * m + 2) / 5

theorem daysFromCivil_march {y m : ℤ} (hy : -2 ^ 40 ≤ y ∧ y < 2 ^ 40) (h₀ : 0 ≤ m) (hm : m < 12) :
    daysFromCivil (if m < 10 then y else y + 1) (if m < 10 then m + 3 else m - 9) 1 = .ok (monthDays y m) := by
  have hera := marchStart_era (y % 400) (y / 400)
  have hstart : marchStart (y % 400) = 365 * (y % 400) + y % 400 / 4 - y % 400 / 100 := by
    unfold marchStart
    omega
  have hyear : (if (if m < 10 then m + 3 else m - 9) ≤ 2 then
        (i64 .overflow ((if m < 10 then y else y + 1) - 1) : Except MktimeError ℤ)
      else .ok (if m < 10 then y else y + 1)) = .ok y := by
    by_cases hten : m < 10
    · rw [if_pos hten, if_pos hten, if_neg (by omega)]
    · rw [if_neg hten, if_neg hten, if_pos (by omega), i64, if_pos (by unfold FitsI64; omega), Int.add_sub_cancel]
  have hshift : (if 2 < (if m < 10 then m + 3 else m - 9) then (if m < 10 then m + 3 else m - 9) - 3
      else (if m < 10 then m + 3 else m - 9) + 9) = m := by
    split <;> split <;> omega
  rw [show y % 400 + y / 400 * 400 = y by omega] at hera
  unfold daysFromCivil DAYS_ERA_TO_UNIX_EPOCH DAYS_PER_ERA monthDays
  rw [hyear, ok_bind, floorDiv_eq (by decide) (by unfold FitsI64; omega), ok_bind]
  rw [i64_bind (by unfold FitsI64; omega), show y - y / 400 * 400 = y % 400 by omega]
  rw [i64_bind (by unfold FitsI64; omega), hshift, i64_bind (by unfold FitsI64; omega)]
  rw [i64_bind (by unfold FitsI64; omega), i64_bind (by unfold FitsI64; omega)]
  rw [Int.tdiv_eq_ediv_of_nonneg (show 0 ≤ 153 * m + 2 by omega)]
  rw [Int.tdiv_eq_ediv_of_nonneg (show 0 ≤ y % 400 by omega), Int.tdiv_eq_ediv_of_nonneg (show 0 ≤ y % 400 by omega)]
  rw [i64_bind (by unfold FitsI64; omega), i64_bind (by unfold FitsI64; omega), i64_bind (by unfold FitsI64; omega)]
  rw [i64_bind (by unfold FitsI64; omega), i64_bind (by unfold FitsI64; omega), i64_bind (by unfold FitsI64; omega)]
  rw [i64_bind (by unfold FitsI64; omega), i64_bind (by unfold FitsI64; omega), i64, if_pos (by unfold FitsI64; omega)]
  congr 1
  omega

/-- the days before a month, any of the twelve -/
theorem daysFromCivil_spec {y : ℤ} {m : ℕ} (hy : -2 ^ 39 ≤ y ∧ y < 2 ^ 39) (hm : m < 12) :
    daysFromCivil y (m + 1) 1 = .ok (yearStart y + monthStart y m) := by
  by_cases htwo : m < 2
  · have h := daysFromCivil_march (y := y - 1) (m := m + 10) (by omega) (by omega) (by omega)
    have hmonth := january_month (y - 1) htwo
    rw [if_neg (by omega), if_neg (by omega), Int.sub_add_cancel, show (m : ℤ) + 10 - 9 = m + 1 by omega] at h
    rw [Int.sub_add_cancel] at hmonth
    rw [h, monthDays, hmonth]
  · obtain ⟨k, rfl⟩ : ∃ k, m = k + 2 := ⟨m - 2, by omega⟩
    have h := daysFromCivil_march (y := y) (m := k) (by omega) (by omega) (by omega)
    rw [if_pos (by omega), if_pos (by omega), show (k : ℤ) + 3 = (k + 2 : ℕ) + 1 by push_cast; omega] at h
    rw [h, monthDays, (march_month y (by omega)).1]

theorem isLeap_eq (y : ℤ) : isLeap y = decide (Leap y) := by
  have hzero : ∀ k : ℤ, y.tmod k = 0 ↔ y % k = 0 := fun k =>
    Int.dvd_iff_tmod_eq_zero.symm.trans Int.dvd_iff_emod_eq_zero
  exact decide_eq_decide.2 (by rw [Ne, hzero, hzero, hzero, Leap])

end Days

/-! ## `gmtime` -/

/-- second `t` since the epoch is this date and time of day -/
structure Reads (t : ℤ) (date : Date) (hour min sec : ℤ) : Prop where
  hour_nonneg : 0 ≤ hour
  hour_lt : hour < 24
  min_nonneg : 0 ≤ min
  min_lt : min < 60
  sec_nonneg : 0 ≤ sec
  sec_lt : sec < 60
  second : t = date.number * 86400 + hour * 3600 + min * 60 + sec

/-- the fields of a date and a time of day -/
def fields (date : Date) (hour min sec : ℤ) : Tm where
  sec := sec
  min := min
  hour := hour
  mday := date.day
  mon := date.month
  year := date.year - 1900
  wday := weekday date.number
  yday := date.yday
  isdst := 0

section Gmtime

variable {t hour min sec hour' min' sec' : ℤ} {date date' : Date}

theorem Reads.unique (h : Reads t date hour min sec) (h' : Reads t date' hour' min' sec') :
    date = date' ∧ hour = hour' ∧ min = min' ∧ sec = sec' := by
  obtain ⟨_, _, _, _, _, _, h⟩ := h
  obtain ⟨_, _, _, _, _, _, h'⟩ := h'
  exact ⟨Date.number_inj (by omega), by omega, by omega, by omega⟩

theorem Date.month_day (d : Date) : (d.month : ℤ) < 12 ∧ 1 ≤ d.day ∧ d.day ≤ 31 := by
  have hlast := d.day_le
  have hmonth := d.month_lt
  refine ⟨by omega, d.day_pos, ?_⟩
  unfold monthLength at hlast
  split at hlast
  · split at hlast <;> omega
  all_goals omega

/-- the day of the year out of the table -/
theorem table_yday (d : Date) :
    DAYS_BEFORE_MONTH.getD d.month 0 + d.day - 1 + (if isLeap d.year ∧ 2 < (d.month : ℤ) + 1 then 1 else 0) =
      d.yday := by
  have hif : (isLeap d.year ∧ 2 < (d.month : ℤ) + 1) ↔ Leap d.year ∧ 1 < d.month := by
    rw [isLeap_eq, decide_eq_true_eq]
    exact and_congr_right fun _ => by omega
  rw [Date.yday, monthStart_eq _ d.month_lt, if_congr hif rfl rfl, DAYS_BEFORE_MONTH]
  omega

theorem gmtime_eq (ht : FitsI64 t) : ∃ date hour min sec, Reads t date hour min sec ∧
    gmtime t =
      if FitsI32 (date.year - 1900) then .ok (fields date hour min sec) else .error (.yearOutOfRange date.year) := by
  have ht' := ht
  unfold FitsI64 at ht'
  obtain ⟨d, hnumber, hcivil⟩ := civilFromDays_spec (n := t / 86400) (by omega)
  refine ⟨d, t % 86400 / 3600, t % 86400 / 60 % 60, t % 86400 % 60,
    ⟨by omega, by omega, by omega, by omega, by omega, by omega, by omega⟩, ?_⟩
  obtain ⟨hmonth, hday₀, hday⟩ := Date.month_day d
  have hyday := d.yday_bounds
  have hylen := yearLength_le d.year
  have hyear := d.year_bounds
  have hfirst : FitsI64 (d.year - 1900) := by
    unfold FitsI64 
    unfold yearStart at hyear
    omega
  have hdayfits : asI32 d.day = d.day := asI32_eq (by unfold FitsI32; omega)
  have hindex : (d.month : ℤ) + 1 - 1 = d.month := by omega
  have htable := table_yday d
  unfold gmtime SECONDS_PER_DAY UNIX_EPOCH_WEEKDAY
  rw [floorDiv_eq (by decide) ht, ok_bind, hcivil, ok_bind]
  dsimp only
  rw [i64_bind hfirst]
  by_cases hfits : FitsI32 (d.year - 1900)
  · rw [if_pos hfits, if_neg (not_not.2 hfits)]
    simp only [hdayfits, hindex]
    rw [i64_bind (by unfold FitsI64; omega), i64_bind (by unfold FitsI64; omega), Int.toNat_natCast]
    generalize DAYS_BEFORE_MONTH.getD d.month 0 = before at htable ⊢
    obtain ⟨leap, hleap, hle⟩ : ∃ leap : ℤ,
        (if isLeap d.year ∧ 2 < (d.month : ℤ) + 1 then 1 else 0) = leap ∧ 0 ≤ leap ∧ leap ≤ 1 :=
      ⟨_, rfl, by split <;> omega⟩
    rw [hleap] at htable ⊢
    rw [i32_bind (by unfold FitsI32; omega), i32_bind (by unfold FitsI32; omega)]
    rw [i32_bind (by unfold FitsI32; omega), htable]
    have hsec : (t % 86400).tmod 60 = t % 86400 % 60 := Int.tmod_eq_emod_of_nonneg (by omega)
    have hmin : ((t % 86400).tdiv 60).tmod 60 = t % 86400 / 60 % 60 := by
      rw [Int.tdiv_eq_ediv_of_nonneg (by omega), Int.tmod_eq_emod_of_nonneg (by omega)]
    have hhour : (t % 86400).tdiv 3600 = t % 86400 / 3600 := Int.tdiv_eq_ediv_of_nonneg (by omega)
    rw [hsec, hmin, hhour, asI32_eq (by unfold FitsI32; omega), asI32_eq (by unfold FitsI32; omega)]
    rw [asI32_eq (by unfold FitsI32; omega), asI32_eq (by unfold FitsI32; omega), asI32_eq (by unfold FitsI32; omega)]
    rw [fields, weekday, hnumber]
    rfl
  · rw [if_neg hfits, if_pos hfits]
    rfl

end Gmtime

/-! ## `mktime` -/

/-- the fields are of their types -/
structure Tm.Fits (tm : Tm) : Prop where
  sec : FitsI32 tm.sec
  min : FitsI32 tm.min
  hour : FitsI32 tm.hour
  mday : FitsI32 tm.mday
  mon : FitsI32 tm.mon
  year : FitsI32 tm.year
  wday : FitsI32 tm.wday
  yday : FitsI32 tm.yday
  isdst : FitsI32 tm.isdst

/-- the year of the fields, the months past twelve carried into it -/
def Tm.civilYear (tm : Tm) : ℤ := 1900 + (12 * tm.year + tm.mon) / 12

def Tm.civilMonth (tm : Tm) : ℕ := ((12 * tm.year + tm.mon) % 12).toNat

/-- the seconds of the days before that month, of `mday - 1` more, and of the time of day -/
def Tm.seconds (tm : Tm) : ℤ :=
  (yearStart tm.civilYear + monthStart tm.civilYear tm.civilMonth + (tm.mday - 1)) * 86400 +
    tm.hour * 3600 + tm.min * 60 + tm.sec

section Mktime

variable {tm : Tm} {t hour min sec : ℤ} {date : Date}

theorem Tm.civilMonth_lt (tm : Tm) : tm.civilMonth < 12 := by
  unfold Tm.civilMonth
  omega

theorem monthStart_bounds (y : ℤ) {m : ℕ} (hm : m < 12) : 0 ≤ monthStart y m ∧ monthStart y m ≤ 366 := by
  have hzero : monthStart y 0 = 0 := rfl
  have hlow := monthStart_mono y (Nat.zero_le m)
  have hhigh := monthStart_mono y hm.le
  have hlen := yearLength_le y
  rw [monthStart_year] at hhigh
  omega

theorem Tm.Fits.seconds (h : tm.Fits) : FitsI64 tm.seconds := by
  obtain ⟨hsec, hmin, hhour, hmday, hmon, hyear, -⟩ := h
  have hstart := monthStart_bounds tm.civilYear tm.civilMonth_lt
  unfold FitsI32 at *
  unfold FitsI64 Tm.seconds
  generalize monthStart _ _ = start at *
  unfold yearStart Tm.civilYear
  omega

theorem mktime_eq (h : tm.Fits) : mktime tm = match gmtime tm.seconds with
    | .ok normalised => .ok (tm.seconds, normalised)
    | .error _ => .error (.outOfRange tm.year tm.mon) := by
  have hseconds := h.seconds
  obtain ⟨hsec, hmin, hhour, hmday, hmon, hyear, -⟩ := h
  have hstart := monthStart_bounds tm.civilYear tm.civilMonth_lt
  unfold FitsI32 at *
  have hmonths : tm.year * 12 + tm.mon = 12 * tm.year + tm.mon := by omega
  have hcarry : (12 * tm.year + tm.mon) / 12 + 1900 = tm.civilYear := by
    unfold Tm.civilYear
    omega
  have hmonth : 12 * tm.year + tm.mon - (12 * tm.year + tm.mon) / 12 * 12 + 1 = tm.civilMonth + 1 := by
    unfold Tm.civilMonth
    omega
  have hcivil : -2 ^ 33 ≤ tm.civilYear ∧ tm.civilYear < 2 ^ 33 := by
    unfold Tm.civilYear
    omega
  have hyears : -2 ^ 42 ≤ yearStart tm.civilYear ∧ yearStart tm.civilYear < 2 ^ 42 := by
    unfold yearStart
    omega
  have htotal : (yearStart tm.civilYear + monthStart tm.civilYear tm.civilMonth + tm.mday - 1) * 86400 +
      tm.hour * 3600 + tm.min * 60 + tm.sec = tm.seconds := by
    unfold Tm.seconds
    omega
  unfold mktime SECONDS_PER_DAY
  dsimp only
  rw [i64_bind (by unfold FitsI64; omega), i64_bind (by unfold FitsI64; omega), hmonths]
  rw [floorDiv_eq (by decide) (by unfold FitsI64; omega), ok_bind, i64_bind (by unfold FitsI64; omega), hcarry]
  rw [i64_bind (by unfold FitsI64; omega), i64_bind (by unfold FitsI64; omega), i64_bind (by unfold FitsI64; omega), hmonth]
  rw [daysFromCivil_spec (by omega) tm.civilMonth_lt, ok_bind]
  rw [i64_bind (by unfold FitsI64; omega), i64_bind (by unfold FitsI64; omega), i64_bind (by unfold FitsI64; omega)]
  rw [i64_bind (by unfold FitsI64; omega), i64_bind (by unfold FitsI64; omega), i64_bind (by unfold FitsI64; omega)]
  rw [i64_bind (by unfold FitsI64; omega), htotal, i64_bind hseconds]
  cases gmtime tm.seconds <;> rfl

theorem Reads.fields_fits (h : Reads t date hour min sec) (hy : FitsI32 (date.year - 1900)) :
    (fields date hour min sec).Fits := by
  obtain ⟨hh₀, hh, hm₀, hm, hs₀, hs, -⟩ := h
  obtain ⟨hmonth, hday₀, hday⟩ := Date.month_day date
  have hyday := date.yday_bounds
  have hylen := yearLength_le date.year
  unfold FitsI32 at hy
  have hwday : 0 ≤ weekday date.number ∧ weekday date.number < 7 := by
    unfold weekday
    omega
  constructor <;> unfold FitsI32 fields <;> dsimp only <;> omega

theorem Reads.fields_seconds (h : Reads t date hour min sec) : (fields date hour min sec).seconds = t := by
  have hmonth := date.month_lt
  have hyear : (fields date hour min sec).civilYear = date.year := by
    unfold Tm.civilYear fields
    dsimp only
    omega
  have hmon : (fields date hour min sec).civilMonth = date.month := by
    unfold Tm.civilMonth fields
    dsimp only
    omega
  rw [h.second, Tm.seconds, hyear, hmon, Date.number, Date.yday, fields]
  ring

/-- it undoes `gmtime` -/
theorem mktime_gmtime (ht : FitsI64 t) (h : gmtime t = .ok tm) : mktime tm = .ok (t, tm) := by
  obtain ⟨date, hour, min, sec, hreads, heq⟩ := gmtime_eq ht
  by_cases hy : FitsI32 (date.year - 1900)
  · rw [h, if_pos hy] at heq
    cases heq
    rw [mktime_eq (hreads.fields_fits hy), hreads.fields_seconds, h]
  · rw [h, if_neg hy] at heq
    cases heq

end Mktime

end Omnidroid.Bionic.Time
