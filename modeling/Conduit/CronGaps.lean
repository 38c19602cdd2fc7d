import Conduit.Gaps
import Conduit.Scheduler

/-!
# Gaps Between Scheduled Minutes

`Next` looks four years of 365 days ahead. The calendar repeats after 400 years, so a schedule
that has a minute at all has minutes for ever; but between two of them there can be more than
that. A February 29 is 1461 days before the next one, and eight years before it around a century
that is no leap year. From such a minute `Next` finds nothing, returns the zero time, and the
entry is never fired again.

## Main results

* `matches_add_cycle`: scheduled minutes repeat after 400 years.
* `shortGaps_of_date`: a date that every year has, on any day of the week, is found in time.
* `next_ne_zeroTime_iff`: `Next` always finds a minute exactly when no gap is as long as its
  limit.
-/

namespace Conduit

open Strings Transition

/-- The nanoseconds in 400 years. -/
def cycleNs : ℤ := 146097 * dayNs

namespace CronSchedule

variable {c : CronSchedule}

/-- It is less than four years of 365 days from each scheduled minute to another one. -/
def ShortGaps (c : CronSchedule) : Prop := Gaps.Short {m | c.Matches m} fourYears

/-! ### Minutes that repeat -/

theorem minuteOk_congr {w w' : WallClock} (h : w.minute = w'.minute) :
    c.minuteOk w = c.minuteOk w' := by
  simp only [minuteOk, h]

/-- The time of day decides whether a minute is full, and its hour and minute. -/
theorem clock_congr {t u : ℤ} (h : utcClock u = utcClock t) :
    u % minute = t % minute ∧ c.hourOk (utc.wallClock u) = c.hourOk (utc.wallClock t) ∧
      c.minuteOk (utc.wallClock u) = c.minuteOk (utc.wallClock t) := by
  refine ⟨?_, hourOk_congr ?_, minuteOk_congr ?_⟩
  · unfold utcClock dayNs at h
    unfold minute second Duration
    omega
  · simp only [utc, utcHour, h]
  · simp only [utc, utcMinute, h]

/-- Day `n`, at the time of day of `t`. -/
theorem day_clock (t n : ℤ) :
    utcDay (zeroTime + n * dayNs + utcClock t) = n ∧
      utcClock (zeroTime + n * dayNs + utcClock t) = utcClock t := by
  unfold utcDay utcClock dayNs
  omega

/-- An instant is a day and a time of day. -/
theorem eq_day_clock (t : ℤ) : t = zeroTime + utcDay t * dayNs + utcClock t := by
  unfold utcDay utcClock dayNs Time
  omega

/-- **Scheduled minutes** repeat after 400 years. -/
theorem matches_add_cycle (t k : ℤ) : c.Matches (t + k * cycleNs) ↔ c.Matches t := by
  have hsplit : t + k * cycleNs = zeroTime + (utcDay t + k * 146097) * dayNs + utcClock t := by
    have ht := eq_day_clock t
    unfold cycleNs dayNs Time at *
    omega
  obtain ⟨hday, hclock⟩ := day_clock t (utcDay t + k * 146097)
  rw [← hsplit] at hday hclock
  obtain ⟨hfull, hhour, hminute⟩ := clock_congr (c := c) hclock
  have hdate := Calendar.ofDay_add_cycle (utcDay t) k
  have hmonth : c.monthOk (utc.wallClock (t + k * cycleNs)) = c.monthOk (utc.wallClock t) :=
    monthOk_congr (by simp only [utc, hday, hdate])
  have hdom : c.dayOk (utc.wallClock (t + k * cycleNs)) = c.dayOk (utc.wallClock t) :=
    dayOk_congr (by simp only [utc, hday, hdate])
      (by simp only [utc, hday, Calendar.weekday_add_cycle])
  rw [Matches, Matches, hfull, hmonth, hdom, hhour, hminute]

theorem periodic_matches (c : CronSchedule) :
    Function.Periodic (· ∈ {m | c.Matches m}) cycleNs := by
  intro t
  have hcycle := matches_add_cycle (c := c) t 1
  rw [Int.one_mul] at hcycle
  exact propext hcycle

theorem cycleNs_pos : 0 < cycleNs := by decide

/-- **Dates that every year has**, on any day of the week, are less than four years apart. -/
theorem shortGaps_of_date (hweek : ∀ d, c.dows d = true) {i : Fin 12} {j : Fin 31}
    (hmonth : c.months i = true) (hdom : c.doms j = true)
    (hdate : (j : ℕ) + 1 ≤ Calendar.monthLength false (i + 1)) : c.ShortGaps := by
  intro m hm
  obtain ⟨n, hlt, hle, hofMonth, hofDay⟩ := Calendar.exists_date (utcDay m)
    (i + 1) (j + 1) ⟨by omega, by omega⟩ (by omega) hdate
  obtain ⟨hday, hclock⟩ := day_clock m n
  obtain ⟨hfull, hhour, hminute⟩ := clock_congr (c := c) hclock
  obtain ⟨hfull', -, -, hhour', hminute'⟩ := hm
  have hsplit := eq_day_clock m
  refine ⟨zeroTime + n * dayNs + utcClock m, ⟨?_, ?_, ?_, ?_, ?_⟩, ?_, ?_⟩
  · rw [hfull, hfull']
  · simp only [monthOk, utc, hday, hofMonth]
    exact hmonth
  · simp only [dayOk, utc, hday, hofDay, hweek, Bool.and_true]
    exact hdom
  · rw [hhour, hhour']
  · rw [hminute, hminute']
  · unfold dayNs Time at *
    omega
  · unfold fourYears minute second dayNs Time Duration at *
    omega

/-! ### Finding a minute -/

/-- `Next` returns a match if one comes before its limit. -/
theorem next_of_lt {t m : ℤ} (hm : c.Matches m) (hlt : t < m) (hlimit : m < t + fourYears) :
    c.Matches (c.next t) ∧ t < c.next t := by
  rcases (c.next_isLeast t).2 with ⟨hleast, -⟩ | ⟨hnone, -⟩
  · exact hleast.1
  · exact absurd (hnone m hm hlt) (not_le.mpr hlimit)

/-- What `Next` returns other than the zero time is a match before its limit. -/
theorem matches_next {t : ℤ} (h : c.next t ≠ zeroTime) :
    c.Matches (c.next t) ∧ t < c.next t ∧ c.next t < t + fourYears := by
  rcases (c.next_isLeast t).2 with ⟨hleast, hlimit⟩ | ⟨-, hzero⟩
  · exact ⟨hleast.1.1, hleast.1.2, hlimit⟩
  · exact absurd hzero h

/-- The minute before the zero time is followed by it. -/
theorem next_before_zeroTime (h : c.Matches zeroTime) : c.next (zeroTime - 1) = zeroTime := by
  rcases (c.next_isLeast (zeroTime - 1)).2 with ⟨⟨⟨-, hlt⟩, hleast⟩, -⟩ | ⟨-, hzero⟩
  · have hle := hleast ⟨h, Int.sub_lt_self _ Int.one_pos⟩
    exact le_antisymm hle (Int.le_of_sub_one_lt hlt)
  · exact hzero

end CronSchedule

/-- **Schedules that go on.** For a schedule that has a minute at all, `Next` finds one from
every time on from year 1 if and only if it has no gap of four years of 365 days, and from every
time before that too if moreover the zero time itself is not scheduled. Then a tick that comes
late enough fires an enabled entry, whatever has happened before. Dates that every year has, on
any day of the week, have no such gap. -/
theorem next_ne_zeroTime_iff (c : CronSchedule) (hsome : ∃ m, c.Matches m) :
    ((∀ t, c.next t ≠ zeroTime) ↔ c.ShortGaps ∧ ¬ c.Matches zeroTime) ∧
      ((∀ t, zeroTime ≤ t → c.next t ≠ zeroTime) ↔ c.ShortGaps) ∧
      (c.ShortGaps → ∀ as s name entry, exec scheduleStep .new as = some s →
        s.entries name = some (entry, c) → entry.enabled = true →
          ∃ due, ∀ now, due ≤ now → s.fires now name = true) ∧
      ∀ i j, (∀ d, c.dows d = true) → c.months i = true → c.doms j = true →
        (j : ℕ) + 1 ≤ Calendar.monthLength false (i + 1) → c.ShortGaps := by
  have hgaps := fun z => Gaps.short_iff (w := CronSchedule.fourYears) c.periodic_matches
    CronSchedule.cycleNs_pos hsome z
  have hzero : (∀ t, zeroTime ≤ t → c.next t ≠ zeroTime) ↔ c.ShortGaps := by
    constructor
    · intro hnext
      refine (hgaps zeroTime).mpr fun t ht => ?_
      exact ⟨c.next t, CronSchedule.matches_next (hnext t ht)⟩
    · intro hshort t ht
      obtain ⟨m, hm, hlt, hlimit⟩ := (hgaps t).mp hshort t (le_refl t)
      exact ne_of_gt (lt_of_le_of_lt ht (CronSchedule.next_of_lt hm hlt hlimit).2)
  refine ⟨⟨fun hnext => ⟨hzero.mp fun t _ => hnext t, fun hm => ?_⟩, ?_⟩, hzero, ?_, ?_⟩
  · exact hnext _ (CronSchedule.next_before_zeroTime hm)
  · rintro ⟨hshort, hnot⟩ t hnone
    obtain ⟨m, hm, hlt, hlimit⟩ := (hgaps t).mp hshort t (le_refl t)
    have hmatch := (CronSchedule.next_of_lt hm hlt hlimit).1
    rw [hnone] at hmatch
    exact hnot hmatch
  · intro hshort as s name entry has hentry henabled
    refine ⟨c.next (s.lastRun name), fun now hnow => (fires_iff hentry).mpr ?_⟩
    exact ⟨henabled, hzero.mpr hshort _ ((zeroTime_le has).2 name), hnow⟩
  · intro i j hweek hmonth hdom hdate
    exact CronSchedule.shortGaps_of_date hweek hmonth hdom hdate

/-- The yearly entry for January 1 goes on. -/
theorem yearly_goes_on : ∃ c, register yearly = .ok c ∧ c.Matches 1767225600000000000 ∧
    ∀ t, zeroTime ≤ t → c.next t ≠ zeroTime := by
  have hcheck : (register yearly).toOption.any (fun c =>
      decide (c.Matches 1767225600000000000) &&
        decide ((∀ d, c.dows d = true) ∧ c.months 0 = true ∧ c.doms 0 = true)) = true := by
    decide +kernel
  cases hregister : register yearly with
  | error e =>
      rw [hregister] at hcheck
      cases hcheck
  | ok c =>
      rw [hregister] at hcheck
      obtain ⟨hmatch, hsets⟩ := Bool.and_eq_true_iff.mp hcheck
      obtain ⟨hweek, hmonth, hdom⟩ := of_decide_eq_true hsets
      have hm := of_decide_eq_true hmatch
      obtain ⟨-, hiff, -, hdate⟩ := next_ne_zeroTime_iff c ⟨_, hm⟩
      exact ⟨c, rfl, hm, hiff.mpr (hdate 0 0 hweek hmonth hdom (by decide))⟩

/-- An entry for every February 29. -/
def leapDay : CronEntry where
  name := ascii ['l']
  cron := ascii ['0', ' ', '0', ' ', '2', '9', ' ', '2', ' ', '*']
  enabled := true

/-- It is registered on February 28, 2024, and there is a tick at the first minute of the 29th. -/
def leapDayRun : List ScheduleAct :=
  [.register 1709078400000000000 leapDay, .tick 1709164800000000000]

/-- The entry is fired on February 29, 2024, and never again. -/
theorem leapDay_dies :
    ∃ c s, register leapDay = .ok c ∧ c.Matches 1709164800000000000 ∧
      c.next 1709164800000000000 = zeroTime ∧ exec scheduleStep .new leapDayRun = some s ∧
      firings leapDay.name leapDayRun = [1709164800000000000] ∧
      ∀ now, s.fires now leapDay.name = false := by
  have hcheck : (register leapDay).toOption.any (fun c =>
      decide (c.Matches 1709164800000000000) &&
        decide (c.next 1709164800000000000 = zeroTime)) = true := by
    decide +kernel
  have hfired : firings leapDay.name leapDayRun = [1709164800000000000] := by decide +kernel
  cases hregister : register leapDay with
  | error e =>
      rw [hregister] at hcheck
      cases hcheck
  | ok c =>
      rw [hregister] at hcheck
      obtain ⟨hmatch, hnext⟩ := Bool.and_eq_true_iff.mp hcheck
      have hrun : exec scheduleStep .new leapDayRun =
          some ((Scheduler.new.after (.register 1709078400000000000 leapDay)).after
            (.tick 1709164800000000000)) := rfl
      refine ⟨c, _, rfl, of_decide_eq_true hmatch, of_decide_eq_true hnext, hrun, hfired, ?_⟩
      intro now
      have hentry : ((Scheduler.new.after (.register 1709078400000000000 leapDay)).after
          (.tick 1709164800000000000)).entries leapDay.name = some (leapDay, c) := by
        simp [Scheduler.after, hregister]
      have hlast := lastRun_eq leapDay.name hrun
      rw [hfired, List.getLast?_singleton, Option.getD_some] at hlast
      rw [Bool.eq_false_iff, Ne, fires_iff hentry, hlast]
      exact fun hfires => hfires.2.1 (of_decide_eq_true hnext)

end Conduit
