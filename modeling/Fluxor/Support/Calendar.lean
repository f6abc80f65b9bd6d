import Mathlib.Data.Int.ConditionallyCompleteOrder
import Mathlib.Order.SuccPred.IntervalSucc
import Mathlib.Tactic.IntervalCases

/-!
# The proleptic Gregorian calendar

Days are counted from 1 January of year 1, which is day 0, and months from that
January. `monthStart` is the first day of a month, and every day lies in exactly one
month, `monthOfDay`; the year, month and day of a date are read off from it.
-/

namespace Fluxor.Support.Calendar

def isLeap (year : ℤ) : Bool := year % 4 = 0 ∧ (year % 100 ≠ 0 ∨ year % 400 = 0)

def yearStart (year : ℤ) : ℤ :=
  365 * (year - 1) + (year - 1) / 4 - (year - 1) / 100 + (year - 1) / 400

/-- The days before a month of a year that is not a leap year. -/
def daysBefore (month : ℤ) : ℤ :=
  if month ≤ 1 then 0 else if month = 2 then 31 else if month = 3 then 59
  else if month = 4 then 90 else if month = 5 then 120
  else if month = 6 then 151 else if month = 7 then 181
  else if month = 8 then 212 else if month = 9 then 243
  else if month = 10 then 273 else if month = 11 then 304
  else if month = 12 then 334 else 365

def daysBeforeIn (year month : ℤ) : ℤ := daysBefore month + if isLeap year ∧ 2 < month then 1 else 0

def daysInMonth (year month : ℤ) : ℤ :=
  if month = 2 then if isLeap year then 29 else 28
  else if month = 4 ∨ month = 6 ∨ month = 9 ∨ month = 11 then 30
  else 31

def monthStart (k : ℤ) : ℤ := yearStart (k / 12 + 1) + daysBeforeIn (k / 12 + 1) (k % 12 + 1)

theorem yearStart_succ (year : ℤ) :
    yearStart (year + 1) = yearStart year + 365 + if isLeap year then 1 else 0 := by
  unfold yearStart isLeap
  simp only [decide_eq_true_eq]
  split <;> omega

variable {year month : ℤ}

theorem daysBeforeIn_succ (hlo : 1 ≤ month) (hhi : month ≤ 12) :
    daysBeforeIn year (month + 1) = daysBeforeIn year month + daysInMonth year month := by
  unfold daysBeforeIn daysInMonth
  cases isLeap year
  all_goals interval_cases month <;> decide

theorem daysBeforeIn_one (year : ℤ) : daysBeforeIn year 1 = 0 := by
  simp [daysBeforeIn, daysBefore]

theorem yearStart_succ_eq (year : ℤ) :
    yearStart (year + 1) = yearStart year + daysBeforeIn year 13 := by
  rw [yearStart_succ]
  simp [daysBeforeIn, daysBefore, add_assoc]

theorem monthStart_succ (k : ℤ) :
    monthStart (k + 1) = monthStart k + daysInMonth (k / 12 + 1) (k % 12 + 1) := by
  have hsucc : daysBeforeIn (k / 12 + 1) (k % 12 + 1 + 1) = daysBeforeIn (k / 12 + 1) (k % 12 + 1) +
        daysInMonth (k / 12 + 1) (k % 12 + 1) :=
    daysBeforeIn_succ (by omega) (by omega)
  unfold monthStart
  by_cases hlast : k % 12 = 11
  · have hyear : (k + 1) / 12 + 1 = k / 12 + 1 + 1 := by omega
    have hmonth : (k + 1) % 12 + 1 = 1 := by omega
    rw [hyear, hmonth, yearStart_succ_eq, daysBeforeIn_one, add_zero, add_assoc, ← hsucc, hlast]
    rfl
  · have hyear : (k + 1) / 12 + 1 = k / 12 + 1 := by omega
    have hmonth : (k + 1) % 12 + 1 = k % 12 + 1 + 1 := by omega
    rw [hyear, hmonth, hsucc, add_assoc]

theorem monthStart_of_year (hlo : 1 ≤ month) (hhi : month ≤ 12) :
    monthStart (12 * (year - 1) + (month - 1)) = yearStart year + daysBeforeIn year month := by
  have hyear : (12 * (year - 1) + (month - 1)) / 12 + 1 = year := by omega
  have hmonth : (12 * (year - 1) + (month - 1)) % 12 + 1 = month := by omega
  rw [monthStart, hyear, hmonth]

theorem daysInMonth_bounds (year month : ℤ) :
    28 ≤ daysInMonth year month ∧ daysInMonth year month ≤ 31 := by
  unfold daysInMonth
  split
  · split <;> omega
  · split <;> omega

theorem monthStart_strictMono : StrictMono monthStart := by
  apply strictMono_int_of_lt_succ
  intro k
  have := daysInMonth_bounds (k / 12 + 1) (k % 12 + 1)
  rw [monthStart_succ]
  omega

theorem yearStart_bounds (year : ℤ) : 146097 * (year - 1) - 800 ≤ 400 * yearStart year ∧
      400 * yearStart year ≤ 146097 * (year - 1) + 400 := by
  unfold yearStart
  omega

/-- The year of a day: the mean length of a year gives it up to one. -/
def yearOfDay (n : ℤ) : ℤ :=
  let year := 400 * n / 146097 + 1
  if n < yearStart year then year - 1
  else if yearStart (year + 1) ≤ n then year + 1
  else year

theorem yearStart_yearOfDay (n : ℤ) :
    yearStart (yearOfDay n) ≤ n ∧ n < yearStart (yearOfDay n + 1) := by
  unfold yearOfDay
  generalize hyear : 400 * n / 146097 + 1 = year
  dsimp only
  split
  · have := yearStart_bounds (year - 1)
    rw [sub_add_cancel]
    omega
  · split
    · have := yearStart_bounds (year + 1 + 1)
      omega
    · omega

/-- The month in which a day of the year lies, among `month` and the given number of
months after it. -/
def monthFrom (year yday : ℤ) : ℕ → ℤ → ℤ
  | 0, month => month
  | count + 1, month =>
    if yday < daysBeforeIn year (month + 1) then month
    else monthFrom year yday count (month + 1)

theorem monthFrom_spec {yday : ℤ} {count : ℕ} (hlo : daysBeforeIn year month ≤ yday)
    (hhi : yday < daysBeforeIn year (month + count + 1)) :
    (month ≤ monthFrom year yday count month ∧ monthFrom year yday count month ≤ month + count) ∧
    daysBeforeIn year (monthFrom year yday count month) ≤ yday ∧
      yday < daysBeforeIn year (monthFrom year yday count month + 1) := by
  induction count generalizing month with
  | zero =>
    rw [Nat.cast_zero, add_zero] at hhi ⊢
    exact ⟨⟨le_refl _, le_refl _⟩, hlo, hhi⟩
  | succ count ih =>
    rw [Nat.cast_succ] at hhi ⊢
    unfold monthFrom
    split
    next hmonth => exact ⟨⟨le_refl _, by omega⟩, hlo, hmonth⟩
    next hmonth =>
      have hshift : month + 1 + (count : ℤ) = month + (count + 1) := by omega
      obtain ⟨⟨h₁, h₂⟩, hspec⟩ := ih (not_lt.mp hmonth) (hshift ▸ hhi)
      exact ⟨⟨by omega, by omega⟩, hspec⟩

def monthOfDay (n : ℤ) : ℤ :=
  let year := yearOfDay n
  12 * (year - 1) + (monthFrom year (n - yearStart year) 11 1 - 1)

theorem monthOfDay_spec (n : ℤ) :
    monthStart (monthOfDay n) ≤ n ∧ n < monthStart (monthOfDay n + 1) := by
  obtain ⟨hlo, hhi⟩ := yearStart_yearOfDay n
  unfold monthOfDay
  dsimp only
  generalize yearOfDay n = year at hlo hhi ⊢
  rw [yearStart_succ_eq] at hhi
  have hfirst : daysBeforeIn year 1 ≤ n - yearStart year := by
    rw [daysBeforeIn_one]
    omega
  have hlast : n - yearStart year < daysBeforeIn year (1 + (11 : ℕ) + 1) := by
    change _ < daysBeforeIn year 13
    omega
  obtain ⟨⟨h₁, h₁₂⟩, hstart, hend⟩ := monthFrom_spec hfirst hlast
  generalize monthFrom year (n - yearStart year) 11 1 = month at *
  have hmonth : month ≤ 12 := h₁₂
  rw [daysBeforeIn_succ h₁ hmonth] at hend
  have hyear : (12 * (year - 1) + (month - 1)) / 12 + 1 = year := by omega
  have hmod : (12 * (year - 1) + (month - 1)) % 12 + 1 = month := by omega
  rw [monthStart_succ, hyear, hmod, monthStart_of_year h₁ hmonth]
  omega

theorem monthOfDay_eq_iff {n k : ℤ} :
    monthOfDay n = k ↔ monthStart k ≤ n ∧ n < monthStart (k + 1) := by
  constructor
  · rintro rfl
    exact monthOfDay_spec n
  · rintro ⟨hlo, hhi⟩
    obtain ⟨hlo', hhi'⟩ := monthOfDay_spec n
    have h₁ := monthStart_strictMono.lt_iff_lt.mp (hlo.trans_lt hhi')
    have h₂ := monthStart_strictMono.lt_iff_lt.mp (hlo'.trans_lt hhi)
    omega

structure Date where
  (year month day : ℤ)
  month_mem : 1 ≤ month ∧ month ≤ 12
  day_mem : 1 ≤ day ∧ day ≤ daysInMonth year month

def dateOfDay (n : ℤ) : Date where
  year := monthOfDay n / 12 + 1
  month := monthOfDay n % 12 + 1
  day := n - monthStart (monthOfDay n) + 1
  month_mem := by omega
  day_mem := by
    obtain ⟨hlo, hhi⟩ := monthOfDay_spec n
    rw [monthStart_succ] at hhi
    omega

/-- The day with the given year, month and day; a month outside 1 to 12 or a
day outside the month runs into the neighbouring ones. -/
def dayOfDate (year month day : ℤ) : ℤ := monthStart (12 * (year - 1) + (month - 1)) + (day - 1)

/-- The day of the week, from 0 for Sunday; day 0 was a Monday. -/
def weekdayOfDay (n : ℤ) : ℤ := (n + 1) % 7

theorem monthIndex_dateOfDay (n : ℤ) :
    12 * ((dateOfDay n).year - 1) + ((dateOfDay n).month - 1) = monthOfDay n := by
  simp only [dateOfDay]
  omega

theorem dayOfDate_dateOfDay (n : ℤ) :
    dayOfDate (dateOfDay n).year (dateOfDay n).month (dateOfDay n).day = n := by
  rw [dayOfDate, monthIndex_dateOfDay]
  simp only [dateOfDay]
  omega

theorem isLeap_succ (h : isLeap year) : isLeap (year + 1) = false := by
  simp only [isLeap, decide_eq_true_eq, decide_eq_false_iff_not] at h ⊢
  omega

theorem monthStart_add_twelve_le (k : ℤ) : monthStart (k + 12) ≤ monthStart k + 366 := by
  have hyear : (k + 12) / 12 + 1 = k / 12 + 1 + 1 := by omega
  have hmonth : (k + 12) % 12 + 1 = k % 12 + 1 := by omega
  rw [monthStart, monthStart, hyear, hmonth, yearStart_succ]
  unfold daysBeforeIn
  cases hleap : isLeap (k / 12 + 1) with
  | true =>
    simp only [isLeap_succ hleap, Bool.false_eq_true, false_and, if_false, if_true, true_and]
    split <;> omega
  | false =>
    simp only [Bool.false_eq_true, false_and, if_false]
    split <;> omega

theorem dayOfDate_add_years_le (years : ℕ) (year month day : ℤ) :
    dayOfDate (year + years) month day ≤ dayOfDate year month day + 366 * years := by
  induction years with
  | zero => simp
  | succ years ih =>
    have hstep := monthStart_add_twelve_le (12 * (year + years - 1) + (month - 1))
    have hindex : 12 * (year + years - 1) + (month - 1) + 12 =
        12 * (year + (years + 1 : ℕ) - 1) + (month - 1) := by
      push_cast
      omega
    rw [hindex] at hstep
    unfold dayOfDate at ih ⊢
    push_cast at hstep ⊢
    omega

end Fluxor.Support.Calendar
