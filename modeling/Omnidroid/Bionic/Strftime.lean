/-
`strftime` (`omni-bionic/src/time.rs`): a `struct tm` as text. Every conversion checks the fields it reads and no others.

- `strftime`, `emit`, `isoWeekDate`, `pushPadded`: the code. `%E` and `%O` are passed over.
- `isoWeekDate_spec`, `weekOfYear_spec`: the week numbers of fields that are a date's are the calendar's.
- `calendar_law`: `gmtime`, `mktime` and the weeks together, for every second and every nine fields.
- `year_refused`: a week of the year 10000 has no `%G`.
-/
import Omnidroid.Bionic.Time

namespace Omnidroid.Bionic.Time

open Calendar

/-! ## The code -/

def MAX_STRFTIME_OUTPUT : ℕ := 1024 * 1024

structure StrftimeTm where
  tm : Tm
  gmtoff : ℤ
  zone : Option (List UInt8)
deriving DecidableEq

inductive StrftimeOutput where
  | fits (text : List UInt8)
  | doesNotFit (needed : ℕ)
deriving DecidableEq

inductive StrftimeError where
  | incompleteSpecifier
  | unknownSpecifier (specifier : UInt8)
  | extensionSpecifier (specifier : UInt8) (what : String)
  | secondsSinceEpochUnavailable
  | fieldOutOfRange (specifier : UInt8) (field : String) (value lower upper : ℤ)
  | yearNotRepresentable (specifier : UInt8) (year lower upper : ℤ)
  | timeZoneNameUnavailable
  | gmtoffOutOfRange (gmtoff : ℤ)
  | outputTooLarge (limit : ℕ)
deriving DecidableEq

def WEEKDAY_ABBREVIATED : List String := ["Sun", "Mon", "Tue", "Wed", "Thu", "Fri", "Sat"]

def WEEKDAY_FULL : List String := ["Sunday", "Monday", "Tuesday", "Wednesday", "Thursday", "Friday", "Saturday"]

def MONTH_ABBREVIATED : List String :=
  ["Jan", "Feb", "Mar", "Apr", "May", "Jun", "Jul", "Aug", "Sep", "Oct", "Nov", "Dec"]

def MONTH_FULL : List String :=
  ["January", "February", "March", "April", "May", "June", "July", "August", "September", "October", "November", "December"]

/-- the bytes of a text in ASCII -/
def ascii (s : String) : List UInt8 := s.toList.map fun c => UInt8.ofNat c.toNat

section Fields

variable (tm : Tm) (specifier : UInt8)

def field (value : ℤ) (name : String) (lower upper : ℤ) : Except StrftimeError ℤ :=
  if value < lower ∨ upper < value then .error (.fieldOutOfRange specifier name value lower upper) else .ok value

def wday : Except StrftimeError ℤ := field specifier tm.wday "tm_wday" 0 6

def mon : Except StrftimeError ℤ := field specifier tm.mon "tm_mon" 0 11

def mday : Except StrftimeError ℤ := field specifier tm.mday "tm_mday" 1 31

def hour : Except StrftimeError ℤ := field specifier tm.hour "tm_hour" 0 23

def yday : Except StrftimeError ℤ := field specifier tm.yday "tm_yday" 0 365

def calendarYear : ℤ := tm.year + 1900

def yearRepresentable (year lower upper : ℤ) : Except StrftimeError ℤ :=
  if year < lower ∨ upper < year then .error (.yearNotRepresentable specifier year lower upper) else .ok year

def yearWithin (lower upper : ℤ) : Except StrftimeError ℤ := yearRepresentable specifier (calendarYear tm) lower upper

def weeksInIsoYear (year januaryFirst : ℤ) : ℤ :=
  if januaryFirst = 4 ∨ (isLeap year ∧ januaryFirst = 3) then 53 else 52

def isoWeekDate : Except StrftimeError (ℤ × ℤ) := do
  let yday ← yday tm specifier
  let wday ← wday tm specifier
  let year := calendarYear tm
  let isoWday := (wday + 6).tmod 7
  let week := (yday - isoWday + 10).tdiv 7
  let januaryFirst := (wday - yday) % 7
  if week = 0 then
    let previous := year - 1
    let previousFirst := (januaryFirst - 1 - if isLeap previous then 1 else 0) % 7
    pure (previous, weeksInIsoYear previous previousFirst)
  else if weeksInIsoYear year januaryFirst < week then pure (year + 1, 1)
  else pure (year, week)

end Fields

/-- the digits of a number, the last first, as far as the buffer goes -/
def digits : ℕ → ℕ → List UInt8
  | 0, _ => []
  | room + 1, rest => UInt8.ofNat (48 + rest % 10) :: if rest / 10 = 0 then [] else digits room (rest / 10)

def pushPadded (value : ℤ) (width : ℕ) (pad : UInt8) : List UInt8 :=
  let digits := digits 20 value.toNat
  List.replicate (width - digits.length) pad ++ digits.reverse

/-- the conversions that are no others -/
def emitOne (specifier : UInt8) (when' : StrftimeTm) : Except StrftimeError (List UInt8) :=
  let tm := when'.tm
  match Char.ofNat specifier.toNat with
  | 'a' => do return ascii (WEEKDAY_ABBREVIATED.getD (← wday tm specifier).toNat "")
  | 'A' => do return ascii (WEEKDAY_FULL.getD (← wday tm specifier).toNat "")
  | 'b' | 'h' => do return ascii (MONTH_ABBREVIATED.getD (← mon tm specifier).toNat "")
  | 'B' => do return ascii (MONTH_FULL.getD (← mon tm specifier).toNat "")
  | 'C' => do return pushPadded ((← yearWithin tm specifier 0 9999).tdiv 100) 2 48
  | 'd' => do return pushPadded (← mday tm specifier) 2 48
  | 'e' => do return pushPadded (← mday tm specifier) 2 32
  | 'H' => do return pushPadded (← hour tm specifier) 2 48
  | 'I' => do
    let hour ← hour tm specifier
    return pushPadded (if hour.tmod 12 = 0 then 12 else hour.tmod 12) 2 48
  | 'j' => do return pushPadded ((← yday tm specifier) + 1) 3 48
  | 'm' => do return pushPadded ((← mon tm specifier) + 1) 2 48
  | 'M' => do return pushPadded (← field specifier tm.min "tm_min" 0 59) 2 48
  | 'S' => do return pushPadded (← field specifier tm.sec "tm_sec" 0 60) 2 48
  | 'n' => .ok [10]
  | 't' => .ok [9]
  | 'p' => do return ascii (if (← hour tm specifier) < 12 then "AM" else "PM")
  | 'u' => do
    let wday ← wday tm specifier
    return pushPadded (if wday = 0 then 7 else wday) 1 48
  | 'w' => do return pushPadded (← wday tm specifier) 1 48
  | 'U' => do
    let yday ← yday tm specifier
    let wday ← wday tm specifier
    return pushPadded ((yday + 7 - wday).tdiv 7) 2 48
  | 'W' => do
    let yday ← yday tm specifier
    let wday ← wday tm specifier
    return pushPadded ((yday + 7 - (wday + 6).tmod 7).tdiv 7) 2 48
  | 'V' => do return pushPadded (← isoWeekDate tm specifier).2 2 48
  | 'G' => do
    let (year, _) ← isoWeekDate tm specifier
    return pushPadded (← yearRepresentable specifier year 1000 9999) 4 48
  | 'g' => do
    let (year, _) ← isoWeekDate tm specifier
    return pushPadded ((← yearRepresentable specifier year 0 9999).tmod 100) 2 48
  | 'y' => do return pushPadded ((← yearWithin tm specifier 0 9999).tmod 100) 2 48
  | 'Y' => do return pushPadded (← yearWithin tm specifier 1000 9999) 4 48
  | 'z' =>
    let offset := when'.gmtoff
    if offset < -86400 ∨ 86400 < offset then .error (.gmtoffOutOfRange offset)
    else
      .ok ((if offset < 0 then 45 else 43) ::
        (pushPadded (|offset| / 3600) 2 48 ++ pushPadded (|offset| / 60 % 60) 2 48))
  | 'Z' => match when'.zone with
    | some zone => .ok zone
    | none => .error .timeZoneNameUnavailable
  | '%' => .ok [37]
  | 's' => .error .secondsSinceEpochUnavailable
  | 'k' => .error (.extensionSpecifier specifier "GNU/BSD: the 24-hour hour, blank-padded")
  | 'l' => .error (.extensionSpecifier specifier "GNU/BSD: the 12-hour hour, blank-padded")
  | 'P' => .error (.extensionSpecifier specifier "GNU: am/pm in lower case")
  | 'v' => .error (.extensionSpecifier specifier "BSD: %e-%b-%Y")
  | '+' => .error (.extensionSpecifier specifier "BSD: date(1)'s default format")
  | _ => .error (.unknownSpecifier specifier)

/-- conversions, each after the text before it -/
def emitEach (when' : StrftimeTm) (pieces : List (String × Char)) : Except StrftimeError (List UInt8) := do
  let texts ← pieces.mapM fun p => do return ascii p.1 ++ (← emitOne (UInt8.ofNat p.2.toNat) when')
  return texts.flatten

def emit (specifier : UInt8) (when' : StrftimeTm) : Except StrftimeError (List UInt8) :=
  match Char.ofNat specifier.toNat with
  | 'c' => emitEach when' [("", 'a'), (" ", 'b'), (" ", 'e'), (" ", 'H'), (":", 'M'), (":", 'S'), (" ", 'Y')]
  | 'D' | 'x' => emitEach when' [("", 'm'), ("/", 'd'), ("/", 'y')]
  | 'F' => emitEach when' [("", 'Y'), ("-", 'm'), ("-", 'd')]
  | 'r' => emitEach when' [("", 'I'), (":", 'M'), (":", 'S'), (" ", 'p')]
  | 'R' => emitEach when' [("", 'H'), (":", 'M')]
  | 'T' | 'X' => emitEach when' [("", 'H'), (":", 'M'), (":", 'S')]
  | _ => emitOne specifier when'

def strftimeLoop (when' : StrftimeTm) : List UInt8 → List UInt8 → Except StrftimeError (List UInt8)
  | [], out => .ok out
  | byte :: rest, out =>
    if MAX_STRFTIME_OUTPUT < out.length then .error (.outputTooLarge MAX_STRFTIME_OUTPUT)
    else if byte ≠ 37 then strftimeLoop when' rest (out ++ [byte])
    else
      match rest with
      | [] => .error .incompleteSpecifier
      | next :: rest =>
        -- the C locale has no alternative forms
        if next = 69 ∨ next = 79 then
          match rest with
          | [] => .error .incompleteSpecifier
          | modified :: rest => do strftimeLoop when' rest (out ++ (← emit modified when'))
        else do strftimeLoop when' rest (out ++ (← emit next when'))

/-- with its NUL -/
def output (max : ℕ) (out : List UInt8) : StrftimeOutput :=
  if out.length < max then .fits out else .doesNotFit out.length

def strftime (max : ℕ) (format : List UInt8) (when' : StrftimeTm) : Except StrftimeError StrftimeOutput := do
  let out ← strftimeLoop when' format []
  return output max out

/-! ## The weeks of a date -/

section Weeks

variable {date : Date} {hour min sec n : ℤ} {specifier : UInt8}

theorem weekday_bounds (n : ℤ) : 0 ≤ weekday n ∧ weekday n ≤ 6 := by
  unfold weekday
  omega

theorem wday_fields : wday (fields date hour min sec) specifier = .ok (weekday date.number) := by
  have h := weekday_bounds date.number
  unfold wday field fields
  exact if_neg (by dsimp only; omega)

theorem yday_fields : yday (fields date hour min sec) specifier = .ok date.yday := by
  have h := date.yday_bounds
  have hlen := yearLength_le date.year
  unfold yday field fields
  exact if_neg (by dsimp only; omega)

theorem calendarYear_fields : calendarYear (fields date hour min sec) = date.year := by
  unfold calendarYear fields
  dsimp only
  omega

theorem yearLength_eq (y : ℤ) : yearLength y = 365 + if isLeap y then 1 else 0 := by
  rw [yearLength, isLeap_eq]
  by_cases h : Leap y <;> simp [h]

/-- the Thursdays of a year -/
theorem weeksInIsoYear_spec (y : ℤ) :
    weeksInIsoYear y (weekday (yearStart y)) = (yearLength y - (4 - weekday (yearStart y)) % 7 - 1) / 7 + 1 := by
  have hlen := yearLength_eq y
  have hw := weekday_bounds (yearStart y)
  unfold weeksInIsoYear
  generalize weekday (yearStart y) = w at hw ⊢
  generalize yearLength y = len at hlen ⊢
  cases hleap : isLeap y with
  | false =>
    simp only [hleap, Bool.false_eq_true, if_false, false_and, or_false] at hlen ⊢
    split <;> omega
  | true =>
    simp only [hleap, if_true, true_and] at hlen ⊢
    split <;> omega

/-- where the week is numbered from 1 in the date's own year, by its Thursday -/
def ownWeek (date : Date) : ℤ := (thursday date.number - yearStart date.year + 7) / 7

theorem isoWeekDate_spec (date : Date) (hour min sec : ℤ) (specifier : UInt8) : ∃ year week,
    isoWeekDate (fields date hour min sec) specifier = .ok (year, week) ∧ IsoWeek date.number year week ((date.number + 3) % 7 + 1) := by
  have hyear := date.year_bounds
  have hnumber : date.number = yearStart date.year + date.yday := rfl
  have hlen := yearLength_pos date.year
  have hlen' := yearLength_le date.year
  have hprev := yearStart_succ (date.year - 1)
  have hprevlen := yearLength_eq (date.year - 1)
  have hweek : (date.yday - (weekday date.number + 6).tmod 7 + 10).tdiv 7 = ownWeek date := by
    rw [Int.tmod_eq_emod_of_nonneg (by have := weekday_bounds date.number; omega)]
    unfold ownWeek thursday weekday
    rw [Int.tdiv_eq_ediv_of_nonneg (by omega)]
    omega
  have hfirst : (weekday date.number - date.yday) % 7 = weekday (yearStart date.year) := by
    unfold weekday
    omega
  have hbefore : (weekday (yearStart date.year) - 1 - if isLeap (date.year - 1) then 1 else 0) % 7 =
      weekday (yearStart (date.year - 1)) := by
    rw [Int.sub_add_cancel] at hprev
    unfold weekday
    generalize (if isLeap (date.year - 1) then (1 : ℤ) else 0) = leap at hprevlen ⊢
    omega
  rw [Int.sub_add_cancel] at hprev
  unfold isoWeekDate
  rw [yday_fields, ok_bind, wday_fields, ok_bind, calendarYear_fields]
  simp only [hweek, hfirst, hbefore, weeksInIsoYear_spec]
  by_cases hzero : ownWeek date = 0
  · rw [if_pos hzero]
    refine ⟨_, _, rfl, ?_, ?_, ?_, rfl⟩
    all_goals
      unfold ownWeek thursday weekday at *
      omega
  · rw [if_neg hzero]
    have hnext := yearStart_succ date.year
    have hnextlen := yearLength_pos (date.year + 1)
    -- the Thursday of a week past the last is in the next year
    split
    · refine ⟨_, _, rfl, ?_, ?_, ?_, rfl⟩
      all_goals
        unfold ownWeek thursday weekday at *
        omega
    · refine ⟨_, _, rfl, ?_, ?_, ?_, rfl⟩
      all_goals
        unfold ownWeek thursday weekday at *
        omega

/-- the fields of a date are in range for every conversion -/
theorem isoWeekDate_any (specifier' : UInt8) :
    isoWeekDate (fields date hour min sec) specifier = isoWeekDate (fields date hour min sec) specifier' := by
  rw [isoWeekDate, isoWeekDate, yday_fields, yday_fields, ok_bind, ok_bind, wday_fields, wday_fields]

/-- the weeks that begin on a weekday -/
theorem weekOfYear_spec (date : Date) (first : ℤ) (h₀ : 0 ≤ first) (h₁ : first ≤ 6) :
    WeekOfYear first date.number ((date.yday + 7 - (weekday date.number - first) % 7).tdiv 7) := by
  have hyear := date.year_bounds
  have hnumber : date.number = yearStart date.year + date.yday := rfl
  have hyday := date.yday_bounds
  refine ⟨date.year, yearStart date.year + (first - weekday (yearStart date.year)) % 7, hyear.1, hyear.2,
    by omega, by omega, ?_, ?_⟩
  · unfold weekday
    omega
  · rw [Int.tdiv_eq_ediv_of_nonneg (by omega)]
    split <;> unfold weekday at * <;> omega

end Weeks

/-! ## The text -/

section Text

variable {date : Date} {hour min sec n : ℤ} {specifier : UInt8}

/-- a number in so many decimal digits -/
def decimal : ℕ → ℕ → List UInt8
  | 0, _ => []
  | width + 1, k => decimal width (k / 10) ++ [UInt8.ofNat (48 + k % 10)]

theorem decimal_zero (width : ℕ) : decimal width 0 = List.replicate width 48 := by
  induction width with
  | zero => rfl
  | succ width ih =>
    rw [decimal, ih, List.replicate_succ']
    rfl

theorem padded_digits (width room k : ℕ) (hroom : width < room) (hk : k < 10 ^ (width + 1)) :
    List.replicate (width + 1 - (digits room k).length) 48 ++ (digits room k).reverse = decimal (width + 1) k := by
  induction width generalizing room k with
  | zero =>
    obtain ⟨room, rfl⟩ : ∃ r, room = r + 1 := ⟨room - 1, by omega⟩
    rw [digits, if_pos (by omega)]
    rfl
  | succ width ih =>
    obtain ⟨room, rfl⟩ : ∃ r, room = r + 1 := ⟨room - 1, by omega⟩
    rw [digits, decimal]
    by_cases hlast : k / 10 = 0
    · rw [if_pos hlast, hlast, decimal_zero]
      rfl
    · have hrest := ih room (k / 10) (by omega) (by rw [pow_succ] at hk; omega)
      rw [if_neg hlast, List.length_cons, List.reverse_cons, ← List.append_assoc, Nat.add_sub_add_right, hrest]

theorem pushPadded_eq {k : ℕ} {width : ℕ} (hn : n = k) (h₁ : 0 < width) (h₂ : width ≤ 20) (hk : k < 10 ^ width) :
    pushPadded n width 48 = decimal width k := by
  obtain ⟨w, rfl⟩ : ∃ w, width = w + 1 := ⟨width - 1, by omega⟩
  subst hn
  exact padded_digits w 20 k (by omega) hk

theorem strftime_one (max : ℕ) (when' : StrftimeTm) (hE : specifier ≠ 69) (hO : specifier ≠ 79) :
    strftime max [37, specifier] when' = (output max) <$> emit specifier when' := by
  have hlen : ¬MAX_STRFTIME_OUTPUT < ([] : List UInt8).length := by decide
  have hnone : ¬(specifier = 69 ∨ specifier = 79) := by
    rintro (h | h)
    · exact hE h
    · exact hO h
  unfold strftime
  rw [strftimeLoop, if_neg hlen, if_neg (by decide)]
  rw [if_neg hnone]
  cases emit specifier when' <;> rfl

variable {year week : ℤ} {gmtoff : ℤ} {zone : Option (List UInt8)}

theorem emit_V (h : isoWeekDate (fields date hour min sec) 86 = .ok (year, week)) (hw : 1 ≤ week ∧ week ≤ 53) :
    emit 86 ⟨fields date hour min sec, gmtoff, zone⟩ = .ok (decimal 2 week.toNat) := by
  show (do return pushPadded (← isoWeekDate _ 86).2 2 48) = _
  rw [h, ok_bind, pushPadded_eq (k := week.toNat) (by omega) (by decide) (by decide) (by omega)]
  rfl

theorem emit_u : emit 117 ⟨fields date hour min sec, gmtoff, zone⟩ =
    .ok (decimal 1 ((date.number + 3) % 7 + 1).toNat) := by
  show (do
    let wday ← wday _ 117
    return pushPadded (if wday = 0 then 7 else wday) 1 48) = _
  rw [wday_fields, ok_bind, pushPadded_eq (k := ((date.number + 3) % 7 + 1).toNat)]
  · rfl
  · unfold weekday
    split <;> omega
  all_goals omega

theorem emit_U (h : WeekOfYear 0 date.number n)
    (hn : n = (date.yday + 7 - (weekday date.number - 0) % 7).tdiv 7) :
    emit 85 ⟨fields date hour min sec, gmtoff, zone⟩ = .ok (decimal 2 n.toNat) := by
  have hb := h.bounds
  have hwd := weekday_bounds date.number
  rw [Int.sub_zero, Int.emod_eq_of_lt hwd.1 (by omega)] at hn
  show (do
    let yday ← yday _ 85
    let wday ← wday _ 85
    return pushPadded ((yday + 7 - wday).tdiv 7) 2 48) = _
  rw [yday_fields, ok_bind, wday_fields, ok_bind, ← hn]
  rw [pushPadded_eq (Int.toNat_of_nonneg hb.1).symm (by decide) (by decide) (by omega)]
  rfl

theorem emit_W (h : WeekOfYear 1 date.number n)
    (hn : n = (date.yday + 7 - (weekday date.number - 1) % 7).tdiv 7) :
    emit 87 ⟨fields date hour min sec, gmtoff, zone⟩ = .ok (decimal 2 n.toNat) := by
  have hb := h.bounds
  have hwd := weekday_bounds date.number
  have hmonday : (weekday date.number + 6).tmod 7 = (weekday date.number - 1) % 7 := by
    rw [Int.tmod_eq_emod_of_nonneg (by omega)]
    omega
  show (do
    let yday ← yday _ 87
    let wday ← wday _ 87
    return pushPadded ((yday + 7 - (wday + 6).tmod 7).tdiv 7) 2 48) = _
  rw [yday_fields, ok_bind, wday_fields, ok_bind, hmonday, ← hn]
  rw [pushPadded_eq (Int.toNat_of_nonneg hb.1).symm (by decide) (by decide) (by omega)]
  rfl

theorem emit_G (h : isoWeekDate (fields date hour min sec) 71 = .ok (year, week)) :
    emit 71 ⟨fields date hour min sec, gmtoff, zone⟩ =
      if 1000 ≤ year ∧ year ≤ 9999 then .ok (decimal 4 year.toNat)
      else .error (.yearNotRepresentable 71 year 1000 9999) := by
  show (do
    let (year, _) ← isoWeekDate _ 71
    return pushPadded (← yearRepresentable 71 year 1000 9999) 4 48) = _
  rw [h, ok_bind]
  dsimp only
  unfold yearRepresentable
  by_cases hyear : 1000 ≤ year ∧ year ≤ 9999
  · rw [if_neg (by omega), if_pos hyear, ok_bind]
    rw [pushPadded_eq (k := year.toNat) (by omega) (by decide) (by decide) (by omega)]
    rfl
  · rw [if_pos (by omega), if_neg hyear]
    rfl

theorem emit_g (h : isoWeekDate (fields date hour min sec) 103 = .ok (year, week)) :
    emit 103 ⟨fields date hour min sec, gmtoff, zone⟩ =
      if 0 ≤ year ∧ year ≤ 9999 then .ok (decimal 2 (year % 100).toNat)
      else .error (.yearNotRepresentable 103 year 0 9999) := by
  show (do
    let (year, _) ← isoWeekDate _ 103
    return pushPadded ((← yearRepresentable 103 year 0 9999).tmod 100) 2 48) = _
  rw [h, ok_bind]
  dsimp only
  unfold yearRepresentable
  by_cases hyear : 0 ≤ year ∧ year ≤ 9999
  · rw [if_neg (by omega), if_pos hyear, ok_bind, Int.tmod_eq_emod_of_nonneg hyear.1]
    rw [pushPadded_eq (k := (year % 100).toNat) (by omega) (by decide) (by decide) (by omega)]
    rfl
  · rw [if_pos (by omega), if_neg hyear]
    rfl

/-- what the conversions of weeks give for day `n`: a year past four digits is refused by name -/
structure WeekTexts (n : ℤ) (when' : StrftimeTm) (max : ℕ) (year week day sunday monday : ℤ) : Prop where
  iso : IsoWeek n year week day
  sundays : WeekOfYear 0 n sunday
  mondays : WeekOfYear 1 n monday
  textV : strftime max [37, 86] when' = .ok (output max (decimal 2 week.toNat))
  textu : strftime max [37, 117] when' = .ok (output max (decimal 1 day.toNat))
  textU : strftime max [37, 85] when' = .ok (output max (decimal 2 sunday.toNat))
  textW : strftime max [37, 87] when' = .ok (output max (decimal 2 monday.toNat))
  textG : strftime max [37, 71] when' =
    if 1000 ≤ year ∧ year ≤ 9999 then .ok (output max (decimal 4 year.toNat))
    else .error (.yearNotRepresentable 71 year 1000 9999)
  textg : strftime max [37, 103] when' =
    if 0 ≤ year ∧ year ≤ 9999 then .ok (output max (decimal 2 (year % 100).toNat))
    else .error (.yearNotRepresentable 103 year 0 9999)

theorem weekTexts (date : Date) (hour min sec gmtoff : ℤ) (zone : Option (List UInt8)) (max : ℕ) :
    ∃ year week day sunday monday,
      WeekTexts date.number ⟨fields date hour min sec, gmtoff, zone⟩ max year week day sunday monday := by
  obtain ⟨year, week, heq, hweek⟩ := isoWeekDate_spec date hour min sec 86
  have hsun := weekOfYear_spec date 0 (by decide) (by decide)
  have hmon := weekOfYear_spec date 1 (by decide) (by decide)
  have hb := hweek.bounds
  refine ⟨year, week, _, _, _, hweek, hsun, hmon, ?_, ?_, ?_, ?_, ?_, ?_⟩
  · rw [strftime_one max _ (by decide) (by decide), emit_V heq ⟨hb.1, hb.2.1⟩]
    rfl
  · rw [strftime_one max _ (by decide) (by decide), emit_u]
    rfl
  · rw [strftime_one max _ (by decide) (by decide), emit_U hsun rfl]
    rfl
  · rw [strftime_one max _ (by decide) (by decide), emit_W hmon rfl]
    rfl
  · rw [strftime_one max _ (by decide) (by decide), emit_G ((isoWeekDate_any 86).trans heq)]
    split <;> rfl
  · rw [strftime_one max _ (by decide) (by decide), emit_g ((isoWeekDate_any 86).trans heq)]
    split <;> rfl

end Text

/-! ## The whole -/

/-- each second is one date and time of day; `gmtime` gives its fields where they hold its year, `mktime` the second and
the normalised fields of any nine, and the text of a week is the calendar's -/
theorem calendar_law {t : ℤ} (ht : FitsI64 t) (tm : Tm) (htm : tm.Fits) :
    (∃ date hour min sec, Reads t date hour min sec ∧
      (∀ date' hour' min' sec', Reads t date' hour' min' sec' →
        date = date' ∧ hour = hour' ∧ min = min' ∧ sec = sec') ∧
      gmtime t =
        if FitsI32 (date.year - 1900) then .ok (fields date hour min sec) else .error (.yearOutOfRange date.year)) ∧
    (∃ date hour min sec, Reads tm.seconds date hour min sec ∧
      gmtime tm.seconds =
        (if FitsI32 (date.year - 1900) then .ok (fields date hour min sec) else .error (.yearOutOfRange date.year)) ∧
      mktime tm =
        if FitsI32 (date.year - 1900) then .ok (tm.seconds, fields date hour min sec)
        else .error (.outOfRange tm.year tm.mon)) ∧
    ∀ tm', gmtime t = .ok tm' → mktime tm' = .ok (t, tm') ∧
      ∀ gmtoff zone max, ∃ year week day sunday monday,
        WeekTexts (t / 86400) ⟨tm', gmtoff, zone⟩ max year week day sunday monday := by
  obtain ⟨date, hour, min, sec, hreads, heq⟩ := gmtime_eq ht
  refine ⟨⟨date, hour, min, sec, hreads, fun _ _ _ _ h => hreads.unique h, heq⟩, ?_,
    fun tm' h => ⟨mktime_gmtime ht h, ?_⟩⟩
  · obtain ⟨date', hour', min', sec', hreads', heq'⟩ := gmtime_eq htm.seconds
    refine ⟨date', hour', min', sec', hreads', heq', ?_⟩
    rw [mktime_eq htm, heq']
    by_cases hy : FitsI32 (date'.year - 1900)
    · rw [if_pos hy, if_pos hy]
    · rw [if_neg hy, if_neg hy]
  · intro gmtoff zone max
    have hday : date.number = t / 86400 := by
      obtain ⟨_, _, _, _, _, _, hsecond⟩ := hreads
      omega
    by_cases hy : FitsI32 (date.year - 1900)
    · rw [h, if_pos hy] at heq
      cases heq
      rw [← hday]
      exact weekTexts date hour min sec gmtoff zone max
    · rw [h, if_neg hy] at heq
      cases heq

/-- New Year of 2021, in the last week of 2020, out of fields that want it -/
def newYear : Tm := ⟨0, 0, 24, 31, 11, 120, 0, 0, 0⟩

theorem calendar_law_newYear :
    (∃ date hour min sec, Reads 1609459200 date hour min sec ∧
      mktime newYear =
        if FitsI32 (date.year - 1900) then .ok (1609459200, fields date hour min sec) else .error (.outOfRange 120 11)) ∧
    mktime ⟨0, 0, 0, 1, 0, 121, 5, 0, 0⟩ = .ok (1609459200, ⟨0, 0, 0, 1, 0, 121, 5, 0, 0⟩) := by
  have hlaw := calendar_law (t := 1609459200) (by decide) newYear (by constructor <;> decide)
  have hseconds : newYear.seconds = 1609459200 := by decide
  obtain ⟨date, hour, min, sec, hreads, -, hmk⟩ := hlaw.2.1
  rw [hseconds] at hreads hmk
  exact ⟨⟨date, hour, min, sec, hreads, hmk⟩, (hlaw.2.2 _ (by decide)).1⟩

/-- the first week of the year 10000 -/
theorem year_refused :
    gmtime 253415433600 = .ok ⟨0, 0, 0, 1, 5, 8100, 4, 152, 0⟩ ∧
      strftime 100 [37, 71] ⟨⟨0, 0, 0, 1, 5, 8100, 4, 152, 0⟩, 0, none⟩ =
        .error (.yearNotRepresentable 71 10000 1000 9999) := by
  refine ⟨by decide, by decide⟩

end Omnidroid.Bionic.Time
