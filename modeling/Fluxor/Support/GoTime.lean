import Fluxor.Support.Calendar

/-!
# Instants

An instant is a number of nanoseconds since 1 January of year 1, 00:00 UTC,
Go's zero time. The clock fields are those of UTC.
-/

namespace Fluxor.Support.GoTime

open Calendar

def zeroTime : ℤ := 0

def second : ℤ := 1000000000
def minute : ℤ := 60 * second
def hour : ℤ := 60 * minute
def day : ℤ := 24 * hour

/-- Round down to a multiple of a duration since the zero time. -/
def truncate (t d : ℤ) : ℤ := t - t % d

def dayNumber (t : ℤ) : ℤ := t / day

def date (t : ℤ) : Date := dateOfDay (dayNumber t)

def yearOf (t : ℤ) : ℤ := (date t).year
def monthOf (t : ℤ) : ℤ := (date t).month
def dayOf (t : ℤ) : ℤ := (date t).day
def weekdayOf (t : ℤ) : ℤ := weekdayOfDay (dayNumber t)
def hourOf (t : ℤ) : ℤ := t / hour % 24
def minuteOf (t : ℤ) : ℤ := t / minute % 60
def secondOf (t : ℤ) : ℤ := t / second % 60
def nanosecondOf (t : ℤ) : ℤ := t % second

/-- The instant with the given fields, any of which may run over. -/
def ofFields (year month day hour minute second nanosecond : ℤ) : ℤ :=
  dayOfDate year month day * GoTime.day + hour * GoTime.hour +
    minute * GoTime.minute + second * GoTime.second + nanosecond

def addDate (t : ℤ) (years months days : ℤ) : ℤ :=
  ofFields (yearOf t + years) (monthOf t + months) (dayOf t + days)
    (hourOf t) (minuteOf t) (secondOf t) (nanosecondOf t)

theorem dayNumber_add_clock (t : ℤ) :
    dayNumber t * day + hourOf t * hour + minuteOf t * minute +
      secondOf t * second + nanosecondOf t = t := by
  simp only [dayNumber, hourOf, minuteOf, secondOf, nanosecondOf, day, hour, minute, second]
  omega

theorem addDate_one_day (t : ℤ) : addDate t 0 0 1 = t + day := by
  have hday : dayOfDate (yearOf t + 0) (monthOf t + 0) (dayOf t + 1) = dayNumber t + 1 := by
    have := dayOfDate_dateOfDay (dayNumber t)
    simp only [yearOf, monthOf, dayOf, date, add_zero]
    unfold dayOfDate at this ⊢
    omega
  have hclock := dayNumber_add_clock t
  rw [addDate, ofFields, hday]
  rw [add_mul, one_mul]
  omega

theorem ofFields_date (t h : ℤ) :
    ofFields (yearOf t) (monthOf t) (dayOf t) h 0 0 0 = dayNumber t * day + h * hour := by
  simp only [ofFields, yearOf, monthOf, dayOf, date, dayOfDate_dateOfDay, zero_mul, add_zero]

theorem ofFields_next_month (t : ℤ) :
    ofFields (yearOf t) (monthOf t + 1) 1 0 0 0 0 =
      monthStart (monthOfDay (dayNumber t) + 1) * day := by
  have hindex : 12 * (yearOf t - 1) + (monthOf t + 1 - 1) = monthOfDay (dayNumber t) + 1 := by
    rw [← monthIndex_dateOfDay, yearOf, monthOf, date]
    omega
  simp only [ofFields, dayOfDate, hindex, sub_self, zero_mul, add_zero]

theorem addDate_years_le (t : ℤ) (years : ℕ) : addDate t years 0 0 ≤ t + 366 * years * day := by
  have hday : dayOfDate (yearOf t + years) (monthOf t + 0) (dayOf t + 0) ≤
      dayNumber t + 366 * years := by
    have := dayOfDate_add_years_le years (yearOf t) (monthOf t) (dayOf t)
    rw [add_zero, add_zero]
    refine this.trans_eq ?_
    simp only [yearOf, monthOf, dayOf, date, dayOfDate_dateOfDay]
  have hclock := dayNumber_add_clock t
  rw [addDate, ofFields]
  simp only [day, hour, minute, second] at hclock ⊢
  omega

def ofMinutes (m : ℤ) : ℤ := m * minute

variable (m : ℤ)

theorem dayNumber_ofMinutes : dayNumber (ofMinutes m) = m / 1440 := by
  simp only [dayNumber, ofMinutes, day, hour, minute, second]
  omega

theorem monthOf_ofMinutes : monthOf (ofMinutes m) = (dateOfDay (m / 1440)).month := by
  rw [monthOf, date, dayNumber_ofMinutes]

theorem dayOf_ofMinutes : dayOf (ofMinutes m) = (dateOfDay (m / 1440)).day := by
  rw [dayOf, date, dayNumber_ofMinutes]

theorem weekdayOf_ofMinutes : weekdayOf (ofMinutes m) = weekdayOfDay (m / 1440) := by
  rw [weekdayOf, dayNumber_ofMinutes]

theorem hourOf_ofMinutes : hourOf (ofMinutes m) = m / 60 % 24 := by
  simp only [hourOf, ofMinutes, hour, minute, second]
  omega

theorem minuteOf_ofMinutes : minuteOf (ofMinutes m) = m % 60 := by
  simp only [minuteOf, ofMinutes, minute, second]
  omega

theorem ofMinutes_add_hour : ofMinutes m + hour = ofMinutes (m + 60) := by
  simp only [ofMinutes, hour, minute, second]
  omega

theorem ofMinutes_add_day : ofMinutes m + day = ofMinutes (m + 1440) := by
  simp only [ofMinutes, day, hour, minute, second]
  omega

theorem ofMinutes_add_minute : ofMinutes m + minute = ofMinutes (m + 1) := by
  simp only [ofMinutes, minute, second]
  omega

theorem mul_day (n : ℤ) : n * day = ofMinutes (1440 * n) := by
  simp only [ofMinutes, day, hour, minute, second]
  omega

theorem ofMinutes_ediv (t : ℤ) (h : t % minute = 0) : ofMinutes (t / minute) = t := by
  simp only [ofMinutes, minute, second] at h ⊢
  omega

theorem truncate_minute_add (t : ℤ) : truncate t minute + minute = ofMinutes (t / minute + 1) := by
  simp only [truncate, ofMinutes, minute, second]
  omega

end Fluxor.Support.GoTime
