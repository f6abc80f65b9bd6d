import Fluxor.Support.GoTime
import Fluxor.Support.JumpSearch

/-!
# Cron schedules

A cron schedule has a field for the minute, the hour, the day of the month, the
month and the weekday. `next` searches with jumps to the next month, day, hour or
minute, and gives up after a year's worth of attempts.

The search is followed on numbers of minutes (`jump`), where days, hours and minutes
are quotients and remainders.
-/

namespace Fluxor.Scheduler

open Support Calendar GoTime Stops

structure CronField where
  values : List ℤ := []
  any : Bool := false

def CronField.matches (cf : CronField) (value : ℤ) : Bool :=
  if cf.any then true else cf.values.contains value

structure CronSchedule where
  (minute hour day month weekday : CronField)

namespace CronSchedule

variable (cs : CronSchedule)

/-- Whether the search skips a day, by the branches of the source. -/
def skipsDay (dayOfMonth weekday : ℤ) : Bool :=
  let dayMatches := cs.day.matches dayOfMonth
  let weekdayMatches := cs.weekday.matches weekday
  if !cs.day.any && !cs.weekday.any then !dayMatches && !weekdayMatches
  else if !cs.day.any then !dayMatches
  else if !cs.weekday.any then !weekdayMatches
  else false

/-- One attempt of the search: `none` if all fields match, otherwise where the search goes on. -/
def attempt (current : ℤ) : Option ℤ :=
  if !cs.month.matches (monthOf current) then
    some (ofFields (yearOf current) (monthOf current + 1) 1 0 0 0 0)
  else if cs.skipsDay (dayOf current) (weekdayOf current) then
    let current := addDate current 0 0 1
    some (ofFields (yearOf current) (monthOf current) (dayOf current) 0 0 0 0)
  else if !cs.hour.matches (hourOf current) then
    let current := current + GoTime.hour
    some (ofFields (yearOf current) (monthOf current) (dayOf current) (hourOf current) 0 0 0)
  else if !cs.minute.matches (minuteOf current) then
    some (current + GoTime.minute)
  else none

def maxAttempts : ℕ := 365 * 24 * 60

/-- The next execution time after `t`, or the zero time. -/
def next (t : ℤ) : ℤ :=
  (jumpSearch cs.attempt maxAttempts (truncate t GoTime.minute + GoTime.minute)).getD zeroTime

/-! ## What a schedule means -/

/-- The rule for days: either field if both are restricted, otherwise the
restricted one. -/
def MatchesDay (dayOfMonth weekday : ℤ) : Prop :=
  if cs.day.any = false ∧ cs.weekday.any = false then
    cs.day.matches dayOfMonth ∨ cs.weekday.matches weekday
  else cs.day.matches dayOfMonth ∧ cs.weekday.matches weekday

instance (dayOfMonth weekday : ℤ) : Decidable (cs.MatchesDay dayOfMonth weekday) :=
  inferInstanceAs (Decidable (ite _ _ _))

structure Matches (cs : CronSchedule) (t : ℤ) : Prop where
  whole : t % GoTime.minute = 0
  month : cs.month.matches (monthOf t)
  day : cs.MatchesDay (dayOf t) (weekdayOf t)
  hour : cs.hour.matches (hourOf t)
  minute : cs.minute.matches (minuteOf t)

/-- The first matching minute after an instant. -/
structure IsNext (cs : CronSchedule) (t u : ℤ) : Prop where
  after : t < u
  isMatch : cs.Matches u
  least : ∀ v, t < v → v < u → ¬cs.Matches v

variable {cs : CronSchedule}

theorem skipsDay_eq_false_iff (cs : CronSchedule) (dayOfMonth weekday : ℤ) :
    cs.skipsDay dayOfMonth weekday = false ↔ cs.MatchesDay dayOfMonth weekday := by
  grind [skipsDay, MatchesDay, CronField.matches]

/-! ## The search on minutes -/

def monthOn (cs : CronSchedule) (n : ℤ) : Bool := cs.month.matches (dateOfDay n).month

def dayOn (cs : CronSchedule) (n : ℤ) : Bool := !cs.skipsDay (dateOfDay n).day (weekdayOfDay n)

def jump (cs : CronSchedule) (m : ℤ) : Option ℤ :=
  if !cs.monthOn (m / 1440) then
    some (1440 * monthStart (monthOfDay (m / 1440) + 1))
  else if !cs.dayOn (m / 1440) then some (1440 * (m / 1440 + 1))
  else if !cs.hour.matches (m / 60 % 24) then some (60 * (m / 60 + 1))
  else if !cs.minute.matches (m % 60) then some (m + 1)
  else none

/-- All fields match on a number of minutes. -/
structure MatchesMinute (cs : CronSchedule) (m : ℤ) : Prop where
  month : cs.monthOn (m / 1440) = true
  day : cs.dayOn (m / 1440) = true
  hour : cs.hour.matches (m / 60 % 24) = true
  minute : cs.minute.matches (m % 60) = true

theorem dayOn_eq_true_iff {n : ℤ} :
    cs.dayOn n = true ↔ cs.MatchesDay (dateOfDay n).day (weekdayOfDay n) := by
  grind [skipsDay_eq_false_iff, dayOn]

theorem matches_ofMinutes_iff {m : ℤ} : cs.Matches (ofMinutes m) ↔ cs.MatchesMinute m := by
  constructor
  · rintro ⟨-, hmonth, hday, hhour, hminute⟩
    rw [monthOf_ofMinutes] at hmonth
    rw [dayOf_ofMinutes, weekdayOf_ofMinutes, ← dayOn_eq_true_iff] at hday
    rw [hourOf_ofMinutes] at hhour
    rw [minuteOf_ofMinutes] at hminute
    exact ⟨hmonth, hday, hhour, hminute⟩
  · rintro ⟨hmonth, hday, hhour, hminute⟩
    refine ⟨Int.mul_emod_left m _, ?_, ?_, ?_, ?_⟩
    · rwa [monthOf_ofMinutes]
    · rwa [dayOf_ofMinutes, weekdayOf_ofMinutes, ← dayOn_eq_true_iff]
    · rwa [hourOf_ofMinutes]
    · rwa [minuteOf_ofMinutes]

theorem attempt_ofMinutes (cs : CronSchedule) (m : ℤ) :
    cs.attempt (ofMinutes m) = (cs.jump m).map ofMinutes := by
  unfold attempt jump
  rw [monthOf_ofMinutes, dayOf_ofMinutes, weekdayOf_ofMinutes,
    hourOf_ofMinutes, minuteOf_ofMinutes, dayOn, Bool.not_not]
  by_cases hmonth : (!cs.monthOn (m / 1440)) = true
  · rw [if_pos hmonth, monthOn] at *
    rw [if_pos hmonth, ← monthOf_ofMinutes, ofFields_next_month, dayNumber_ofMinutes, mul_day]
    rfl
  rw [if_neg hmonth]
  rw [monthOn] at hmonth
  rw [if_neg hmonth]
  by_cases hday : cs.skipsDay (dateOfDay (m / 1440)).day (weekdayOfDay (m / 1440)) = true
  · rw [if_pos hday, if_pos hday]
    dsimp only
    rw [ofFields_date, addDate_one_day, ofMinutes_add_day, dayNumber_ofMinutes,
      zero_mul, add_zero, mul_day]
    have : (m + 1440) / 1440 = m / 1440 + 1 := by omega
    rw [this]
    rfl
  rw [if_neg hday, if_neg hday]
  by_cases hhour : (!cs.hour.matches (m / 60 % 24)) = true
  · rw [if_pos hhour, if_pos hhour]
    dsimp only
    rw [ofFields_date, ofMinutes_add_hour, dayNumber_ofMinutes, hourOf_ofMinutes]
    have : (m + 60) / 1440 * GoTime.day + (m + 60) / 60 % 24 * GoTime.hour =
        ofMinutes (60 * (m / 60 + 1)) := by
      simp only [ofMinutes, GoTime.day, GoTime.hour, GoTime.minute, second]
      omega
    rw [this]
    rfl
  rw [if_neg hhour, if_neg hhour]
  by_cases hminute : (!cs.minute.matches (m % 60)) = true
  · rw [if_pos hminute, if_pos hminute, ofMinutes_add_minute]
    rfl
  · rw [if_neg hminute, if_neg hminute]
    rfl

/-- What one attempt finds out, and where it goes on. -/
inductive Attempted (cs : CronSchedule) (m : ℤ) : Option ℤ → Prop
  | month (hmonth : cs.monthOn (m / 1440) = false) :
      Attempted cs m (some (1440 * monthStart (monthOfDay (m / 1440) + 1)))
  | day (hmonth : cs.monthOn (m / 1440) = true) (hday : cs.dayOn (m / 1440) = false) :
      Attempted cs m (some (1440 * (m / 1440 + 1)))
  | hour (hmonth : cs.monthOn (m / 1440) = true) (hday : cs.dayOn (m / 1440) = true)
      (hhour : cs.hour.matches (m / 60 % 24) = false) :
      Attempted cs m (some (60 * (m / 60 + 1)))
  | minute (hmonth : cs.monthOn (m / 1440) = true) (hday : cs.dayOn (m / 1440) = true)
      (hhour : cs.hour.matches (m / 60 % 24) = true)
      (hminute : cs.minute.matches (m % 60) = false) :
      Attempted cs m (some (m + 1))
  | found (h : cs.MatchesMinute m) : Attempted cs m none

theorem attempted (cs : CronSchedule) (m : ℤ) : cs.Attempted m (cs.jump m) := by
  unfold jump
  cases hmonth : cs.monthOn (m / 1440) with
  | false => exact .month hmonth
  | true =>
    cases hday : cs.dayOn (m / 1440) with
    | false => exact .day hmonth hday
    | true =>
      cases hhour : cs.hour.matches (m / 60 % 24) with
      | false => exact .hour hmonth hday hhour
      | true =>
        cases hminute : cs.minute.matches (m % 60) with
        | false => exact .minute hmonth hday hhour hminute
        | true => exact .found ⟨hmonth, hday, hhour, hminute⟩

/-! ## The search is sound -/

variable {m m' u T : ℤ}

theorem matchesMinute_of_jump (h : cs.jump m = none) : cs.MatchesMinute m := by
  have hattempted := cs.attempted m
  rw [h] at hattempted
  cases hattempted with
  | found h => exact h

theorem jump_skips (h : cs.jump m = some m') :
    m < m' ∧ ∀ u, m ≤ u → u < m' → ¬cs.MatchesMinute u := by
  have hattempted := cs.attempted m
  rw [h] at hattempted
  cases hattempted with
  | month hmonth =>
    obtain ⟨hlo, hhi⟩ := monthOfDay_spec (m / 1440)
    refine ⟨by omega, ?_⟩
    intro u hmu hu hmatch
    -- The days up to the next month are all of the month of `m`.
    have hsame : monthOfDay (u / 1440) = monthOfDay (m / 1440) := by
      rw [monthOfDay_eq_iff]
      omega
    have hmonth' := hmatch.month
    simp only [monthOn, dateOfDay, hsame] at hmonth hmonth'
    rw [hmonth] at hmonth'
    cases hmonth'
  | day =>
    refine ⟨by omega, ?_⟩
    intro u hmu hu hmatch
    have hsame : u / 1440 = m / 1440 := by omega
    grind [MatchesMinute.day]
  | hour =>
    refine ⟨by omega, ?_⟩
    intro u hmu hu hmatch
    have hsame : u / 60 = m / 60 := by omega
    grind [MatchesMinute.hour]
  | minute => grind [MatchesMinute.minute]

section

variable (hT : cs.MatchesMinute T)

include hT

theorem jump_le (hle : m ≤ T) (h : cs.jump m = some m') : m' ≤ T := by
  by_contra hlt
  exact (jump_skips h).2 T hle (not_le.mp hlt) hT

/-! ## The attempts suffice -/

theorem MatchesMinute.in_hour (hmonth : cs.monthOn (m / 1440) = true)
    (hday : cs.dayOn (m / 1440) = true) (hhour : cs.hour.matches (m / 60 % 24) = true) :
    cs.MatchesMinute (60 * (m / 60) + T % 60) := by
  have hsame : (60 * (m / 60) + T % 60) / 1440 = m / 1440 := by omega
  have hsame' : (60 * (m / 60) + T % 60) / 60 = m / 60 := by omega
  have hsame'' : (60 * (m / 60) + T % 60) % 60 = T % 60 := by omega
  refine ⟨?_, ?_, ?_, ?_⟩
  · rwa [hsame]
  · rwa [hsame]
  · rwa [hsame']
  · rw [hsame'']
    exact hT.minute

theorem MatchesMinute.on_day (hmonth : cs.monthOn (m / 1440) = true)
    (hday : cs.dayOn (m / 1440) = true) : cs.MatchesMinute (1440 * (m / 1440) + T % 1440) := by
  have hsame : (1440 * (m / 1440) + T % 1440) / 1440 = m / 1440 := by omega
  have hhour : (1440 * (m / 1440) + T % 1440) / 60 % 24 = T / 60 % 24 := by omega
  have hminute : (1440 * (m / 1440) + T % 1440) % 60 = T % 60 := by omega
  refine ⟨?_, ?_, ?_, ?_⟩
  · rwa [hsame]
  · rwa [hsame]
  · rw [hhour]
    exact hT.hour
  · rw [hminute]
    exact hT.minute

section

variable (hle : m ≤ T)

include hle

theorem stops_in_hour (hhour : m / 60 = T / 60) : Stops cs.jump 60 m := by
  have hphase : ∀ m, m ≤ T ∧ m / 60 = T / 60 → Stops cs.jump 1 m ∨
      ∃ m', cs.jump m = some m' ∧ (m' ≤ T ∧ m' / 60 = T / 60) ∧ (T - m').toNat < (T - m).toNat := by
    rintro m ⟨hle, hhour⟩
    cases hjump : cs.jump m with
    | none => exact .inl (.of_none hjump)
    | some =>
      have hle' := jump_le hT hle hjump
      have hlt := (jump_skips hjump).1
      grind
  exact (of_phase hphase ⟨hle, hhour⟩).mono (by omega)

theorem stops_in_day (hday : m / 1440 = T / 1440)
    (hstart : m % 60 = 0) : Stops cs.jump 83 m := by
  have hphase : ∀ m, m ≤ T ∧ m / 1440 = T / 1440 ∧ m % 60 = 0 →
      Stops cs.jump 60 m ∨ ∃ m', cs.jump m = some m' ∧
        (m' ≤ T ∧ m' / 1440 = T / 1440 ∧ m' % 60 = 0) ∧
        ((T - m') / 60).toNat < ((T - m) / 60).toNat := by
    rintro m ⟨hle, hsame, hstart⟩
    have hmonth := hT.month
    have hdayT := hT.day
    rw [← hsame] at hmonth hdayT
    have hattempted := cs.attempted m
    generalize hjump : cs.jump m = r at hattempted
    cases hattempted with
    | month h => exact absurd hmonth (by rw [h]; decide)
    | day _ h => exact absurd hdayT (by rw [h]; decide)
    | hour =>
      have hle' := jump_le hT hle hjump
      grind
    | minute _ _ hhour =>
      have hmatch := hT.in_hour hmonth hdayT hhour
      exact .inl (stops_in_hour hmatch (by omega) (by omega))
    | found => grind [of_none]
  exact (of_phase hphase ⟨hle, hday, hstart⟩).mono (by omega)

theorem stops_from_day {N : ℕ} (hstart : m % 1440 = 0)
    (hN : T - m < 1440 * (N + 1)) : Stops cs.jump (N + 83) m := by
  have hphase : ∀ m, m ≤ T ∧ m % 1440 = 0 → Stops cs.jump 83 m ∨ ∃ m', cs.jump m = some m' ∧
        (m' ≤ T ∧ m' % 1440 = 0) ∧
        ((T - m') / 1440).toNat < ((T - m) / 1440).toNat := by
    rintro m ⟨hle, hstart⟩
    have hattempted := cs.attempted m
    generalize hjump : cs.jump m = r at hattempted
    have hfound : cs.monthOn (m / 1440) = true →
        cs.dayOn (m / 1440) = true → Stops cs.jump 83 m := by
      intro hmonth hday
      exact stops_in_day (hT.on_day hmonth hday) (by omega) (by omega) (by omega)
    cases hattempted with
    | month =>
      have hle' := jump_le hT hle hjump
      have hlt := (jump_skips hjump).1
      grind
    | day =>
      have hle' := jump_le hT hle hjump
      grind
    | hour hmonth hday | minute hmonth hday => exact .inl (hfound hmonth hday)
    | found h => exact .inl (hfound h.month h.day)
  exact (of_phase hphase ⟨hle, hstart⟩).mono (by omega)

theorem stops_from_hour {N : ℕ} (hstart : m % 60 = 0)
    (hN : T - m < 1440 * (N + 1)) : Stops cs.jump (N + 107) m := by
  have hphase : ∀ m, m ≤ T ∧ m % 60 = 0 ∧ T - m < 1440 * (N + 1) →
      Stops cs.jump (N + 84) m ∨ ∃ m', cs.jump m = some m' ∧
        (m' ≤ T ∧ m' % 60 = 0 ∧ T - m' < 1440 * (N + 1)) ∧
        ((1439 - m' % 1440) / 60).toNat < ((1439 - m % 1440) / 60).toNat := by
    rintro m ⟨hle, hstart, hN⟩
    have hattempted := cs.attempted m
    generalize hjump : cs.jump m = r at hattempted
    have hnewday : ∀ m', cs.jump m = some m' → m' % 1440 = 0 → Stops cs.jump (N + 84) m := by
      intro m' hjump hstart'
      have hle' := jump_le hT hle hjump
      have hlt := (jump_skips hjump).1
      exact (stops_succ_iff hjump).mpr (stops_from_day hT hle' hstart' (by omega))
    cases hattempted with
    | month | day => exact .inl (hnewday _ hjump (by omega))
    | hour =>
      by_cases hlast : 60 * (m / 60 + 1) % 1440 = 0
      · exact .inl (hnewday _ hjump hlast)
      · have hle' := jump_le hT hle hjump
        grind
    | minute hmonth hday hhour =>
      have hmatch := hT.in_hour hmonth hday hhour
      exact .inl ((stops_in_hour hmatch (by omega) (by omega)).mono (by omega))
    | found => grind [of_none]
  exact (of_phase hphase ⟨hle, hstart, hN⟩).mono (by omega)

/-- A matching minute within `N` days is found within `N + 167` attempts. -/
theorem stops_of_matches {N : ℕ} (hN : T - m < 1440 * (N + 1)) : Stops cs.jump (N + 167) m := by
  have hphase : ∀ m, m ≤ T ∧ T - m < 1440 * (N + 1) →
      Stops cs.jump (N + 108) m ∨ ∃ m', cs.jump m = some m' ∧ (m' ≤ T ∧ T - m' < 1440 * (N + 1)) ∧
        (59 - m' % 60).toNat < (59 - m % 60).toNat := by
    rintro m ⟨hle, hN⟩
    have hattempted := cs.attempted m
    generalize hjump : cs.jump m = r at hattempted
    have hnewhour : ∀ m', cs.jump m = some m' → m' % 60 = 0 → Stops cs.jump (N + 108) m := by
      intro m' hjump hstart'
      have hle' := jump_le hT hle hjump
      have hlt := (jump_skips hjump).1
      exact (stops_succ_iff hjump).mpr (stops_from_hour hT hle' hstart' (by omega))
    cases hattempted with
    | month | day | hour => exact .inl (hnewhour _ hjump (by omega))
    | minute =>
      by_cases hlast : (m + 1) % 60 = 0
      · exact .inl (hnewhour _ hjump hlast)
      · have hle' := jump_le hT hle hjump
        grind
    | found => grind [of_none]
  exact (of_phase hphase ⟨hle, hN⟩).mono (by omega)

end

end

/-! ## The next execution time -/

theorem next_eq (cs : CronSchedule) (t : ℤ) : cs.next t = ((jumpSearch cs.jump maxAttempts
      (t / GoTime.minute + 1)).map ofMinutes).getD zeroTime := by
  rw [next, truncate_minute_add,
    jumpSearch_map cs.attempt_ofMinutes maxAttempts (t / GoTime.minute + 1)]

theorem isNext_of_search {n : ℕ} {t : ℤ}
    (h : jumpSearch cs.jump n (t / GoTime.minute + 1) = some m) : cs.IsNext t (ofMinutes m) := by
  obtain ⟨hle, hmatch, hleast⟩ := jumpSearch_least
    (fun m => matchesMinute_of_jump) (fun m m' => jump_skips) h
  refine ⟨?_, matches_ofMinutes_iff.mpr hmatch, ?_⟩
  · grind [ofMinutes, GoTime.minute, second]
  · intro v htv hv hmatch'
    obtain ⟨k, rfl⟩ : ∃ k, v = ofMinutes k :=
      ⟨v / GoTime.minute, (ofMinutes_ediv v hmatch'.whole).symm⟩
    grind [ofMinutes, GoTime.minute, second, matches_ofMinutes_iff]

theorem search_of_matches {t : ℤ} (htu : t < u) (hu : u ≤ addDate t 1000 0 0)
    (hmatch : cs.Matches u) :
    ∃ m, jumpSearch cs.jump maxAttempts (t / GoTime.minute + 1) = some m := by
  have hyears : u ≤ t + 366 * (1000 : ℕ) * GoTime.day := hu.trans (addDate_years_le t 1000)
  have hwhole := hmatch.whole
  rw [← ofMinutes_ediv u hwhole, matches_ofMinutes_iff] at hmatch
  have hstops : Stops cs.jump (366000 + 167) (t / GoTime.minute + 1) := by
    apply stops_of_matches hmatch
    · simp only [GoTime.minute, second] at hwhole ⊢
      omega
    · simp only [GoTime.day, GoTime.hour, GoTime.minute, second] at *
      omega
  exact hstops.mono (by decide)

theorem next_cases (cs : CronSchedule) (t : ℤ) :
    cs.next t = zeroTime ∨ cs.IsNext t (cs.next t) := by
  rw [next_eq]
  cases hsearch : jumpSearch cs.jump maxAttempts (t / GoTime.minute + 1) with
  | none => exact .inl rfl
  | some => exact .inr (isNext_of_search hsearch)

/-- A non-zero result is the first matching minute after `t`; and if a minute within
the next thousand years matches, the result is the first one, which may be the zero
time itself. -/
theorem next_isNext (cs : CronSchedule) (t : ℤ) :
    (cs.next t ≠ zeroTime → cs.IsNext t (cs.next t)) ∧
    ((∃ u, t < u ∧ u ≤ addDate t 1000 0 0 ∧ cs.Matches u) → cs.IsNext t (cs.next t)) := by
  constructor
  · intro hne
    exact (cs.next_cases t).resolve_left hne
  · rintro ⟨u, htu, hu, hmatch⟩
    obtain ⟨m, hsearch⟩ := search_of_matches htu hu hmatch
    rw [next_eq, hsearch]
    exact isNext_of_search hsearch

def everyMinute : CronSchedule :=
  ⟨{ any := true }, { any := true }, { any := true }, { any := true }, { any := true }⟩

/-- One minute before the zero time, the next execution time of a schedule that
matches every minute is the zero time. -/
theorem next_zero_of_matches :
    (∃ u, -GoTime.minute < u ∧ u ≤ addDate (-GoTime.minute) 1000 0 0 ∧ everyMinute.Matches u) ∧
      everyMinute.next (-GoTime.minute) = zeroTime := by
  constructor
  · refine ⟨0, by decide, by decide +kernel, ⟨by decide, ?_, ?_, ?_, ?_⟩⟩
    all_goals decide +kernel
  · decide +kernel

/-! ## Sunday as a seven -/

def onWeekdays (cs : CronSchedule) (listed : List ℤ) : CronSchedule :=
  { cs with weekday := ⟨listed, false⟩ }

theorem weekdayOf_ne_seven (t : ℤ) : weekdayOf t ≠ 7 := by
  rw [weekdayOf, weekdayOfDay]
  omega

/-- A minute of a Sunday on which all fields but those of the days match. -/
structure OnSunday (cs : CronSchedule) (u : ℤ) : Prop where
  whole : u % GoTime.minute = 0
  sunday : weekdayOf u = 0
  month : cs.month.matches (monthOf u)
  hour : cs.hour.matches (hourOf u)
  minute : cs.minute.matches (minuteOf u)

/-- The day of the month is listed. -/
def listsDay (cs : CronSchedule) (dayOfMonth : ℤ) : Prop :=
  cs.day.any = false ∧ cs.day.matches dayOfMonth = true

section

variable {before after : List ℤ}

/-- The lists differ on Sundays alone, and there only if neither Sunday nor the day of the
month is listed. -/
theorem skipsDay_sunday {day weekday : ℤ} (hne : weekday ≠ 7)
    (hlisted : weekday = 0 → 0 ∈ before ++ after ∨ cs.listsDay day) :
    (cs.onWeekdays (before ++ 7 :: after)).skipsDay day weekday =
      (cs.onWeekdays (before ++ 0 :: after)).skipsDay day weekday := by
  by_cases hday : cs.listsDay day
  · simp [skipsDay, onWeekdays, hday.1, hday.2]
  · have hcontains : (before ++ 7 :: after).contains weekday =
        (before ++ 0 :: after).contains weekday := by
      rw [Bool.eq_iff_iff, List.contains_iff_mem, List.contains_iff_mem]
      by_cases hzero : weekday = 0
      · subst hzero
        have hmem := (hlisted rfl).resolve_right hday
        simp only [List.mem_append, List.mem_cons] at hmem ⊢
        tauto
      · simp [hne, hzero]
    simp only [skipsDay, onWeekdays, CronField.matches, hcontains]
    rfl

theorem matchesDay_zero (hsunday : weekdayOf u = 0) :
    (cs.onWeekdays (before ++ 0 :: after)).MatchesDay (dayOf u) (weekdayOf u) := by
  rw [← skipsDay_eq_false_iff, hsunday]
  by_cases hany : cs.day.any = true <;> simp [skipsDay, onWeekdays, CronField.matches, hany]

theorem not_matchesDay_seven (hday : ¬cs.listsDay (dayOf u)) (hsunday : weekdayOf u = 0)
    (hunlisted : 0 ∉ before ++ after) :
    ¬(cs.onWeekdays (before ++ 7 :: after)).MatchesDay (dayOf u) (weekdayOf u) := by
  rw [List.mem_append, not_or] at hunlisted
  rw [← skipsDay_eq_false_iff, hsunday]
  rw [listsDay, CronField.matches] at hday
  by_cases hany : cs.day.any = true
  · simp [skipsDay, onWeekdays, CronField.matches, hunlisted, hany]
  · have hunmatched : dayOf u ∉ cs.day.values := by simpa [hany] using hday
    simp [skipsDay, onWeekdays, CronField.matches, hunlisted, hany, hunmatched]

/-- Where the minutes of the hour and the hours of the day can match at all, both searches
make the same jumps. -/
theorem jump_sunday (hlisted : 0 ∈ before ++ after ∨ ∀ u, cs.OnSunday u → cs.listsDay (dayOf u))
    (hhour : cs.hour.matches (T / 60 % 24)) (hminute : cs.minute.matches (T % 60)) :
    (cs.onWeekdays (before ++ 7 :: after)).jump = (cs.onWeekdays (before ++ 0 :: after)).jump := by
  funext m
  by_cases hmonth : cs.monthOn (m / 1440) = true
  · have hskips : (cs.onWeekdays (before ++ 7 :: after)).dayOn (m / 1440) =
        (cs.onWeekdays (before ++ 0 :: after)).dayOn (m / 1440) := by
      refine congrArg not (skipsDay_sunday ?_ fun hsunday => hlisted.imp_right fun hall => ?_)
      · rw [weekdayOfDay]
        omega
      · have hday : (1440 * (m / 1440) + T % 1440) / 1440 = m / 1440 := by omega
        rw [← hday, ← dayOf_ofMinutes]
        refine hall _ ⟨Int.mul_emod_left _ _, ?_, ?_, ?_, ?_⟩
        · rw [weekdayOf_ofMinutes, hday, hsunday]
        · rw [monthOf_ofMinutes, hday]
          exact hmonth
        · rw [hourOf_ofMinutes]
          convert hhour using 2
          omega
        · rw [minuteOf_ofMinutes]
          convert hminute using 2
          omega
    simp only [jump, hskips]
    rfl
  · have hskip : (!cs.monthOn (m / 1440)) = true := by simpa using hmonth
    exact (if_pos hskip).trans (if_pos hskip).symm

variable (cs) in
theorem next_of_no_time (hnone : ∀ T, cs.hour.matches (T / 60 % 24) = true →
    cs.minute.matches (T % 60) = false) (t : ℤ) : cs.next t = zeroTime := by
  refine (cs.next_cases t).resolve_right fun hnext => ?_
  have hwhole := hnext.isMatch.whole
  have hmatch := hnext.isMatch
  rw [← ofMinutes_ediv _ hwhole, matches_ofMinutes_iff] at hmatch
  exact Bool.false_ne_true ((hnone _ hmatch.hour).symm.trans hmatch.minute)

/-- A minute that matches is found at the first attempt from the minute before it. -/
theorem next_of_matches (h : cs.Matches u) : cs.next (u - GoTime.minute) = u := by
  have hwhole := ofMinutes_ediv u h.whole
  have hminute : GoTime.minute = 60000000000 := by decide
  have hstart : (u - GoTime.minute) / GoTime.minute + 1 = u / GoTime.minute := by
    rw [hminute]
    omega
  have hmatch : cs.MatchesMinute (u / GoTime.minute) := by
    rwa [← matches_ofMinutes_iff, hwhole]
  cases hjump : cs.jump (u / GoTime.minute) with
  | none =>
    have hsearch : jumpSearch cs.jump maxAttempts (u / GoTime.minute) =
        some (u / GoTime.minute) := by
      rw [show maxAttempts = 525599 + 1 from rfl, jumpSearch, hjump]
    rw [next_eq, hstart, hsearch]
    exact hwhole
  | some m' =>
    obtain ⟨hlt, hskips⟩ := jump_skips hjump
    exact absurd hmatch (hskips _ le_rfl hlt)

/-- A seven may be replaced by a zero, and a zero by a seven, exactly if Sunday stays listed,
or the day of the month is listed on every Sunday that the other fields leave. -/
theorem next_sunday_iff (cs : CronSchedule) (before after : List ℤ) :
    (∀ t, (cs.onWeekdays (before ++ 7 :: after)).next t =
      (cs.onWeekdays (before ++ 0 :: after)).next t) ↔
    0 ∈ before ++ after ∨ ∀ u, cs.OnSunday u → cs.listsDay (dayOf u) := by
  constructor
  · intro hsame
    refine or_iff_not_imp_left.mpr fun hunlisted u hu => ?_
    by_contra hday
    have hmatch : (cs.onWeekdays (before ++ 0 :: after)).Matches u :=
      ⟨hu.whole, hu.month, matchesDay_zero hu.sunday, hu.hour, hu.minute⟩
    have heq := next_of_matches hmatch
    have hnonzero : u ≠ zeroTime := by
      rintro rfl
      exact absurd hu.sunday (by decide)
    have hseven := ((cs.onWeekdays (before ++ 7 :: after)).next_isNext (u - GoTime.minute)).1
      (by rw [hsame, heq]; exact hnonzero)
    rw [hsame, heq] at hseven
    exact not_matchesDay_seven hday hu.sunday hunlisted hseven.isMatch.day
  · intro hlisted t
    by_cases htime : ∃ T, cs.hour.matches (T / 60 % 24) = true ∧ cs.minute.matches (T % 60) = true
    · obtain ⟨T, hhour, hminute⟩ := htime
      rw [next_eq, next_eq, jump_sunday hlisted hhour hminute]
    · have hnone : ∀ T, cs.hour.matches (T / 60 % 24) = true →
          cs.minute.matches (T % 60) = false :=
        fun T hhour => Bool.eq_false_iff.mpr fun hminute => htime ⟨T, hhour, hminute⟩
      rw [next_of_no_time (cs.onWeekdays (before ++ 7 :: after)) hnone,
        next_of_no_time (cs.onWeekdays (before ++ 0 :: after)) hnone]

end

/-- From the minute before a Sunday: a seven alone never matches. -/
theorem next_seven_zero :
    (everyMinute.onWeekdays [7]).next (6 * GoTime.day - GoTime.minute) = zeroTime ∧
      (everyMinute.onWeekdays [0]).next (6 * GoTime.day - GoTime.minute) = 6 * GoTime.day := by
  constructor
  · refine (next_cases ..).resolve_right fun hnext => ?_
    have hday := hnext.isMatch.day
    rw [← skipsDay_eq_false_iff] at hday
    have hne := weekdayOf_ne_seven
      ((everyMinute.onWeekdays [7]).next (6 * GoTime.day - GoTime.minute))
    simp [skipsDay, onWeekdays, everyMinute, CronField.matches] at hday
    exact hne hday
  · decide +kernel

end CronSchedule

end Fluxor.Scheduler
