import Mathlib.Order.Bounds.Basic
import Conduit.Calendar
import Conduit.Cursor
import Conduit.Strings

/-!
# Cron Expressions

`parseCron` reads the five fields of a cron expression into sets, and `cronSchedule.Next`
searches for the first minute after a given time that is in all of them. The search moves on by
a whole month, day, hour or minute, whichever is the largest unit that does not match.

The search is written over a `Location`, which says how an instant reads on the wall and which
instant a wall reading is, and is then run in UTC. There every jump ends at the beginning of the
next unit, so the instants it passes over agree with the one it leaves in the field that did not
match.

## Main results

* `advance_spec`: a jump goes forward and passes over no match.
* `search_spec`: the search ends, at the first match before the limit or at the limit.
* `next_isLeast`: `Next` returns the first matching minute, if that is before its limit, and the
  zero time otherwise.
-/

namespace Conduit

open Strings

/-! ### Parsing -/

/-- `cronSchedule`: a set for each field. -/
structure CronSchedule where
  minutes : Fin 60 → Bool
  hours : Fin 24 → Bool
  doms : Fin 31 → Bool
  months : Fin 12 → Bool
  dows : Fin 7 → Bool

/-- The errors of `parseField`, with the part they are about. -/
inductive FieldError
  | invalidStep (part : Bytes)
  | invalidRange (part : Bytes)
  | invalidValue (part : Bytes) (min max : ℕ)
  deriving DecidableEq

/-- The fields of a cron expression, by the names its errors use. -/
inductive CronField
  | minute
  | hour
  | dayOfMonth
  | month
  | dayOfWeek
  deriving DecidableEq

/-- The errors of `parseCron`. -/
inductive CronError
  | fieldCount (n : ℕ)
  | field (name : CronField) (e : FieldError)
  deriving DecidableEq

/-- The indices that one part of a field sets. -/
def parsePart (part : Bytes) (min max : ℕ) : Except FieldError (ℕ → Bool) :=
  if part = ascii ['*'] then .ok fun _ => true
  else if (ascii ['*', '/']).isPrefixOf part then
    match parseInt (part.drop 2) with
    | none => .error (.invalidStep part)
    | some n => if n ≤ 0 then .error (.invalidStep part) else .ok fun i => (i : ℤ) % n = 0
  else if 45 ∈ part then
    match parseInt (cut 45 part).1, parseInt (cut 45 part).2 with
    | some lo, some hi =>
      if lo < min ∨ hi > max ∨ lo > hi then .error (.invalidRange part)
      else .ok fun i => lo ≤ min + i ∧ min + i ≤ hi
    | _, _ => .error (.invalidRange part)
  else
    match parseInt part with
    | none => .error (.invalidValue part min max)
    | some n =>
      if n < min ∨ n > max then .error (.invalidValue part min max)
      else .ok fun i => (min + i : ℤ) = n

/-- `parseField`: index `i` of the result stands for the value `min + i`. -/
def parseField (expr : Bytes) (min max : ℕ) : Except FieldError (List Bool) := do
  let sets ← (split 44 expr).mapM fun part => parsePart (trimSpace part) min max
  return (List.range (max - min + 1)).map fun i => sets.any fun set => set i

/-- Copy a field into an array. -/
def toSet (n : ℕ) (bits : List Bool) (i : Fin n) : Bool := bits.getD i false

/-- `parseField` for a named field. -/
def parseNamed (name : CronField) (expr : Bytes) (min max : ℕ) : Except CronError (List Bool) :=
  (parseField expr min max).mapError (.field name)

/-- `parseCron`. -/
def parseCron (expr : Bytes) : Except CronError CronSchedule :=
  match fields expr with
  | [minute, hour, dom, month, dow] => do
    let minutes ← parseNamed .minute minute 0 59
    let hours ← parseNamed .hour hour 0 23
    let doms ← parseNamed .dayOfMonth dom 1 31
    let months ← parseNamed .month month 1 12
    let dows ← parseNamed .dayOfWeek dow 0 6
    return ⟨toSet 60 minutes, toSet 24 hours, toSet 31 doms, toSet 12 months, toSet 7 dows⟩
  | fields => .error (.fieldCount fields.length)

/-! ### Wall clocks -/

/-- An instant as it reads on the wall. -/
structure WallClock where
  year : ℤ
  month : ℕ
  day : ℕ
  weekday : ℕ
  hour : ℕ
  minute : ℕ
  month_mem : 1 ≤ month ∧ month ≤ 12
  day_mem : 1 ≤ day ∧ day ≤ 31
  weekday_lt : weekday < 7
  hour_lt : hour < 24
  minute_lt : minute < 60

/-- A `time.Location`: how instants read, and `time.Date` for a full hour. -/
structure Location where
  wallClock : Time → WallClock
  date (year month day hour : ℤ) : Time

/-- `time.Minute`. -/
def minute : Duration := 60 * second

/-- The number of nanoseconds in an hour and in a day. -/
def hourNs : ℤ := 3600000000000

def dayNs : ℤ := 86400000000000

/-- The day of an instant in UTC, counted from January 1 of year 1. -/
def utcDay (t : ℤ) : ℤ := (t - zeroTime) / dayNs

/-- The nanoseconds of its day before an instant. -/
def utcClock (t : ℤ) : ℤ := (t - zeroTime) % dayNs

/-- The hour of an instant in UTC. -/
def utcHour (t : ℤ) : ℕ := (utcClock t / hourNs).toNat

/-- The minute of an instant in UTC. -/
def utcMinute (t : ℤ) : ℕ := (utcClock t % hourNs / minute).toNat

theorem monthLength_le (leap : Bool) (m : ℕ) : Calendar.monthLength leap m ≤ 31 := by
  unfold Calendar.monthLength
  split
  · split <;> omega
  all_goals omega

/-- UTC. -/
def utc : Location where
  wallClock t :=
    { year := (Calendar.ofDay (utcDay t)).year
      month := (Calendar.ofDay (utcDay t)).month
      day := (Calendar.ofDay (utcDay t)).day
      weekday := Calendar.weekday (utcDay t)
      hour := utcHour t
      minute := utcMinute t
      month_mem := (Calendar.ofDay_valid _).1
      day_mem := ⟨(Calendar.ofDay_valid _).2.1,
        le_trans (Calendar.ofDay_valid _).2.2 (monthLength_le _ _)⟩
      weekday_lt := Calendar.weekday_lt _
      hour_lt := by unfold utcHour utcClock hourNs dayNs; omega
      minute_lt := by unfold utcMinute utcClock hourNs dayNs minute second; omega }
  date year month day hour := zeroTime + Calendar.dayNumber year month day * dayNs + hour * hourNs

/-! ### The search -/

namespace CronSchedule

variable (c : CronSchedule)

/-- The month is in its set. -/
def monthOk (w : WallClock) : Bool :=
  c.months ⟨w.month - 1, by have := w.month_mem; omega⟩

/-- The day of the month and the day of the week are in their sets. -/
def dayOk (w : WallClock) : Bool :=
  c.doms ⟨w.day - 1, by have := w.day_mem; omega⟩ && c.dows ⟨w.weekday, w.weekday_lt⟩

/-- The hour is in its set. -/
def hourOk (w : WallClock) : Bool := c.hours ⟨w.hour, w.hour_lt⟩

/-- The minute is in its set. -/
def minuteOk (w : WallClock) : Bool := c.minutes ⟨w.minute, w.minute_lt⟩

/-- One round of the loop of `Next`: where the search goes on, or `none` at a match. -/
def advance (loc : Location) (t : Time) : Option Time :=
  let w := loc.wallClock t
  if !c.monthOk w then some (loc.date w.year (w.month + 1) 1 0)
  else if !c.dayOk w then some (loc.date w.year w.month (w.day + 1) 0)
  else if !c.hourOk w then some (loc.date w.year w.month w.day (w.hour + 1))
  else if !c.minuteOk w then some (t + minute)
  else none

/-- The loop of `Next`, for a number of rounds; `none` if it is still running then. -/
def search (loc : Location) (limit : Time) : ℕ → Time → Option Time
  | 0, _ => none
  | rounds + 1, t =>
    if t < limit then
      match c.advance loc t with
      | none => some t
      | some t' => search loc limit rounds t'
    else some zeroTime

/-- Four years of 365 days. -/
def fourYears : Duration := 4 * 365 * 24 * 60 * minute

/-- The first full minute after an instant: `from.Add(time.Minute).Truncate(time.Minute)`. -/
def firstMinute (t : Time) : Time := t + minute - (t + minute) % minute

/-- The rounds in which `Next` is done: one for each minute of four years, and one more. -/
def nextRounds : ℕ := 4 * 365 * 24 * 60 + 1

/-- `cronSchedule.Next` in UTC. -/
def next (t : Time) : Time :=
  (c.search utc (t + fourYears) nextRounds (firstMinute t)).getD zeroTime

/-- A full minute all of whose fields are in their sets. -/
def Matches (t : Time) : Prop :=
  t % minute = 0 ∧ c.monthOk (utc.wallClock t) = true ∧ c.dayOk (utc.wallClock t) = true ∧
    c.hourOk (utc.wallClock t) = true ∧ c.minuteOk (utc.wallClock t) = true

instance (t : Time) : Decidable (c.Matches t) := inferInstanceAs (Decidable (_ ∧ _))

end CronSchedule

/-! ### Units of time -/

/-- The instants from `t` to the end of its day are of that day. -/
theorem utcDay_eq {t u : ℤ} (hle : t ≤ u) (hlt : u < zeroTime + (utcDay t + 1) * dayNs) :
    utcDay u = utcDay t := by
  unfold utcDay dayNs at *
  omega

/-- The instants from `t` to the beginning of day `n` are of the days before it. -/
theorem utcDay_mem {t u n : ℤ} (hle : t ≤ u) (hlt : u < zeroTime + n * dayNs) :
    utcDay t ≤ utcDay u ∧ utcDay u < n := by
  unfold utcDay dayNs at *
  omega

/-- The instants from `t` to the end of its hour are of that hour. -/
theorem utcHour_eq {t u : ℤ} (hle : t ≤ u)
    (hlt : u < zeroTime + utcDay t * dayNs + (utcHour t + 1) * hourNs) :
    utcDay u = utcDay t ∧ utcHour u = utcHour t := by
  unfold utcHour utcClock utcDay dayNs hourNs at *
  omega

/-- An instant is within its day and its hour. -/
theorem utcHour_spec (t : ℤ) :
    zeroTime + utcDay t * dayNs + utcHour t * hourNs ≤ t ∧
      t < zeroTime + utcDay t * dayNs + (utcHour t + 1) * hourNs := by
  unfold utcHour utcClock utcDay dayNs hourNs Time
  omega

/-- Full hours are full minutes. -/
theorem fullMinute_date (n h : ℤ) : (zeroTime + n * dayNs + h * hourNs) % minute = 0 := by
  have hfull : ∀ z : ℤ, z % 60000000000 = 0 →
      (z + n * 86400000000000 + h * 3600000000000) % 60000000000 = 0 := by
    omega
  exact hfull zeroTime (by decide)

/-- Full minutes are a minute apart. -/
theorem fullMinute_eq {t u : ℤ} (ht : t % minute = 0) (hu : u % minute = 0) (hle : t ≤ u)
    (hlt : u < t + minute) : u = t := by
  unfold minute second Duration at *
  omega

namespace CronSchedule

variable {c : CronSchedule}

theorem monthOk_congr {w w' : WallClock} (h : w.month = w'.month) :
    c.monthOk w = c.monthOk w' := by
  simp only [monthOk, h]

theorem dayOk_congr {w w' : WallClock} (h : w.day = w'.day) (hweek : w.weekday = w'.weekday) :
    c.dayOk w = c.dayOk w' := by
  simp only [dayOk, h, hweek]

theorem hourOk_congr {w w' : WallClock} (h : w.hour = w'.hour) : c.hourOk w = c.hourOk w' := by
  simp only [hourOk, h]

/-- The first of the month after `t` is within 31 days. -/
theorem next_month_bounds (t : ℤ) :
    t < utc.date (utc.wallClock t).year ((utc.wallClock t).month + 1) 1 0 ∧
      utc.date (utc.wallClock t).year ((utc.wallClock t).month + 1) 1 0 ≤ t + 31 * dayNs := by
  have hnext := Calendar.dayNumber_next_month (utcDay t)
  have hvalid := (Calendar.ofDay_valid (utcDay t)).2
  have hlength := monthLength_le (Calendar.isLeap (Calendar.ofDay (utcDay t)).year)
    (Calendar.ofDay (utcDay t)).month
  have hspec := utcHour_spec t
  have hhour := (utc.wallClock t).hour_lt
  simp only [utc, hnext] at hhour ⊢
  unfold dayNs hourNs Time at *
  constructor
  · omega
  · omega

/-- The search goes forward from `t` to `t'` and passes over no match. -/
def Skips (c : CronSchedule) (t t' : ℤ) : Prop :=
  t < t' ∧ t' % minute = 0 ∧ ∀ u, t ≤ u → u < t' → ¬ c.Matches u

/-- A month that is not in the set is skipped. -/
theorem skips_month {t : ℤ} (h : c.monthOk (utc.wallClock t) = false) :
    c.Skips t (utc.date (utc.wallClock t).year ((utc.wallClock t).month + 1) 1 0) := by
  refine ⟨(next_month_bounds t).1, fullMinute_date _ _, ?_⟩
  · intro u hle hlt hmatch
    have hday := utcDay_mem (n := Calendar.dayNumber (utc.wallClock t).year
      ((utc.wallClock t).month + 1) 1) hle (by simpa [utc] using hlt)
    have hsame := (Calendar.ofDay_of_month hday.1 hday.2).2
    have hok := hmatch.2.1
    have hmonth : c.monthOk (utc.wallClock u) = c.monthOk (utc.wallClock t) := monthOk_congr hsame
    rw [hmonth, h] at hok
    cases hok

/-- The day after `t`. -/
theorem date_next_day (t : ℤ) :
    utc.date (utc.wallClock t).year (utc.wallClock t).month ((utc.wallClock t).day + 1) 0 =
      zeroTime + (utcDay t + 1) * dayNs := by
  have hday := Calendar.dayNumber_ofDay (utcDay t) ((utc.wallClock t).day + 1)
  simp only [utc] at hday ⊢
  rw [hday]
  unfold dayNs hourNs Time
  omega

/-- It is within 31 days, as is everything that the search jumps to. -/
theorem next_day_bounds (t : ℤ) :
    t < utc.date (utc.wallClock t).year (utc.wallClock t).month ((utc.wallClock t).day + 1) 0 ∧
      utc.date (utc.wallClock t).year (utc.wallClock t).month ((utc.wallClock t).day + 1) 0 ≤
        t + 31 * dayNs := by
  rw [date_next_day]
  unfold utcDay dayNs Time
  omega

/-- A day that is not in the sets is skipped. -/
theorem skips_day {t : ℤ} (h : c.dayOk (utc.wallClock t) = false) :
    c.Skips t (utc.date (utc.wallClock t).year (utc.wallClock t).month
      ((utc.wallClock t).day + 1) 0) := by
  refine ⟨(next_day_bounds t).1, fullMinute_date _ _, ?_⟩
  · intro u hle hlt hmatch
    rw [date_next_day] at hlt
    have hday := utcDay_eq hle hlt
    have hok := hmatch.2.2.1
    have hsame : c.dayOk (utc.wallClock u) = c.dayOk (utc.wallClock t) :=
      dayOk_congr (by simp only [utc, hday]) (by simp only [utc, hday])
    rw [hsame, h] at hok
    cases hok

/-- The hour after `t`. -/
theorem date_next_hour (t : ℤ) :
    utc.date (utc.wallClock t).year (utc.wallClock t).month (utc.wallClock t).day
        ((utc.wallClock t).hour + 1) =
      zeroTime + utcDay t * dayNs + (utcHour t + 1) * hourNs := by
  have hday := Calendar.dayNumber_ofDay (utcDay t) (utc.wallClock t).day
  simp only [utc] at hday ⊢
  rw [hday, Int.add_sub_cancel]

theorem next_hour_bounds (t : ℤ) :
    t < utc.date (utc.wallClock t).year (utc.wallClock t).month (utc.wallClock t).day
        ((utc.wallClock t).hour + 1) ∧
      utc.date (utc.wallClock t).year (utc.wallClock t).month (utc.wallClock t).day
        ((utc.wallClock t).hour + 1) ≤ t + 31 * dayNs := by
  have hspec := utcHour_spec t
  rw [date_next_hour]
  refine ⟨hspec.2, ?_⟩
  unfold dayNs hourNs Time at *
  omega

/-- An hour that is not in the set is skipped. -/
theorem skips_hour {t : ℤ} (h : c.hourOk (utc.wallClock t) = false) :
    c.Skips t (utc.date (utc.wallClock t).year (utc.wallClock t).month (utc.wallClock t).day
      ((utc.wallClock t).hour + 1)) := by
  refine ⟨(next_hour_bounds t).1, fullMinute_date _ _, ?_⟩
  · intro u hle hlt hmatch
    rw [date_next_hour] at hlt
    have hok := hmatch.2.2.2.1
    have hsame : c.hourOk (utc.wallClock u) = c.hourOk (utc.wallClock t) :=
      hourOk_congr (utcHour_eq hle hlt).2
    rw [hsame, h] at hok
    cases hok

/-- A minute that is not in the set is skipped. -/
theorem skips_minute {t : ℤ} (hfull : t % minute = 0)
    (h : c.minuteOk (utc.wallClock t) = false) : c.Skips t (t + minute) := by
  refine ⟨?_, ?_, ?_⟩
  · unfold minute second
    omega
  · unfold minute second at *
    omega
  · intro u hle hlt hmatch
    obtain rfl := fullMinute_eq hfull hmatch.1 hle hlt
    have hok := hmatch.2.2.2.2
    rw [h] at hok
    cases hok

/-- **A round of the search** stops at a match or passes over none. -/
theorem advance_spec {t : ℤ} (hfull : t % minute = 0) :
    (c.advance utc t = none ∧ c.Matches t) ∨ ∃ t', c.advance utc t = some t' ∧ c.Skips t t' := by
  unfold advance
  by_cases hmonth : c.monthOk (utc.wallClock t) = true
  · by_cases hday : c.dayOk (utc.wallClock t) = true
    · by_cases hhour : c.hourOk (utc.wallClock t) = true
      · by_cases hminute : c.minuteOk (utc.wallClock t) = true
        · exact .inl ⟨by simp [hmonth, hday, hhour, hminute],
            hfull, hmonth, hday, hhour, hminute⟩
        · exact .inr ⟨_, by simp [hmonth, hday, hhour, hminute],
            skips_minute hfull (by simpa using hminute)⟩
      · exact .inr ⟨_, by simp [hmonth, hday, hhour], skips_hour (by simpa using hhour)⟩
    · exact .inr ⟨_, by simp [hmonth, hday], skips_day (by simpa using hday)⟩
  · exact .inr ⟨_, by simp [hmonth], skips_month (by simpa using hmonth)⟩

/-- What a search from `t` returns: the first match before the limit, or the zero time. -/
def Found (c : CronSchedule) (limit t r : ℤ) : Prop :=
  (IsLeast {m | c.Matches m ∧ t ≤ m} r ∧ r < limit) ∨
    ((∀ m, c.Matches m → t ≤ m → limit ≤ m) ∧ r = zeroTime)

/-- What is found after a jump is found before it. -/
theorem Found.of_skips {limit t t' r : ℤ} (hskips : c.Skips t t') (h : c.Found limit t' r) :
    c.Found limit t r := by
  obtain ⟨hlt, -, hnone⟩ := hskips
  have hlater : ∀ m, c.Matches m → t ≤ m → t' ≤ m := fun m hm hle =>
    not_lt.mp fun hbefore => hnone m hle hbefore hm
  rcases h with ⟨⟨⟨hmatch, hle⟩, hleast⟩, hlimit⟩ | ⟨hall, hzero⟩
  · refine .inl ⟨⟨⟨hmatch, le_trans (le_of_lt hlt) hle⟩, ?_⟩, hlimit⟩
    exact fun m hm => hleast ⟨hm.1, hlater m hm.1 hm.2⟩
  · exact .inr ⟨fun m hm hle => hall m hm (hlater m hm hle), hzero⟩

/-- A search that has reached its limit returns the zero time. -/
theorem search_of_le {limit t : ℤ} (h : limit ≤ t) (rounds : ℕ) :
    c.search utc limit (rounds + 1) t = some zeroTime ∧ c.Found limit t zeroTime := by
  refine ⟨by rw [search, if_neg (not_lt.mpr h)], .inr ⟨fun m _ hle => ?_, rfl⟩⟩
  exact le_trans h hle

/-- **The search ends**, within a round for each minute before the limit and one more. -/
theorem search_spec (limit : ℤ) (rounds : ℕ) {t : ℤ} (hfull : t % minute = 0)
    (hrounds : limit ≤ t + rounds * minute) :
    ∃ r, c.search utc limit (rounds + 1) t = some r ∧ c.Found limit t r := by
  induction rounds generalizing t with
  | zero => exact ⟨_, search_of_le (by simpa using hrounds) 0⟩
  | succ rounds ih =>
      by_cases hlimit : t < limit
      · rcases advance_spec (c := c) hfull with ⟨hstop, hmatch⟩ | ⟨t', hgo, hskips⟩
        · refine ⟨t, by rw [search, if_pos hlimit, hstop], .inl ⟨⟨⟨hmatch, le_refl _⟩, ?_⟩, hlimit⟩⟩
          exact fun m hm => hm.2
        · -- every jump is at least a minute
          have hminute : t + minute ≤ t' := by
            by_contra hnear
            have hsame := fullMinute_eq hfull hskips.2.1 (le_of_lt hskips.1) (not_le.mp hnear)
            exact absurd hskips.1 (by rw [hsame]; exact lt_irrefl _)
          obtain ⟨r, hr, hfound⟩ := ih hskips.2.1 (by
            rw [Nat.cast_succ, Int.add_mul, Int.one_mul] at hrounds
            linarith)
          refine ⟨r, ?_, hfound.of_skips hskips⟩
          rw [search, if_pos hlimit, hgo]
          exact hr
      · exact ⟨_, search_of_le (not_lt.mp hlimit) _⟩

/-- The first full minute after an instant. -/
theorem firstMinute_spec (t : ℤ) :
    firstMinute t % minute = 0 ∧ t < firstMinute t ∧ firstMinute t ≤ t + minute := by
  unfold firstMinute minute second Time Duration
  omega

/-- No full minute lies between an instant and the first full minute after it. -/
theorem firstMinute_le {t m : ℤ} (hfull : m % minute = 0) (hlt : t < m) : firstMinute t ≤ m := by
  unfold firstMinute minute second Time Duration at *
  omega

/-- `Next` is done within its rounds, and what it returns has been found. -/
theorem next_found (t : ℤ) :
    c.search utc (t + fourYears) nextRounds (firstMinute t) = some (c.next t) ∧
      c.Found (t + fourYears) (firstMinute t) (c.next t) := by
  obtain ⟨hfull, hlt, -⟩ := firstMinute_spec t
  obtain ⟨r, hr, hfound⟩ := search_spec (c := c) (t + fourYears) (4 * 365 * 24 * 60) hfull (by
      unfold fourYears
      push_cast
      linarith)
  have hnext : c.next t = r := by
    rw [next, nextRounds, hr, Option.getD_some]
  rw [hnext]
  exact ⟨hr, hfound⟩

/-- The matches after an instant are those from its first full minute on. -/
theorem matches_after (t : ℤ) :
    {m | c.Matches m ∧ firstMinute t ≤ m} = {m | c.Matches m ∧ t < m} := by
  ext m
  constructor
  · rintro ⟨hmatch, hle⟩
    exact ⟨hmatch, lt_of_lt_of_le (firstMinute_spec t).2.1 hle⟩
  · rintro ⟨hmatch, hlt⟩
    exact ⟨hmatch, firstMinute_le hmatch.1 hlt⟩

/-- **`Next`.** Its loop ends, and it returns the first matching minute after `t` if that is
less than four years of 365 days later, and the zero time otherwise. -/
theorem next_isLeast (c : CronSchedule) (t : Time) :
    c.search utc (t + fourYears) nextRounds (firstMinute t) = some (c.next t) ∧
      ((IsLeast {m | c.Matches m ∧ t < m} (c.next t) ∧ c.next t < t + fourYears) ∨
        ((∀ m, c.Matches m → t < m → t + fourYears ≤ m) ∧ c.next t = zeroTime)) := by
  obtain ⟨hends, hfound⟩ := next_found (c := c) t
  refine ⟨hends, ?_⟩
  rcases hfound with ⟨hleast, hlimit⟩ | ⟨hnone, hzero⟩
  · rw [matches_after] at hleast
    exact .inl ⟨hleast, hlimit⟩
  · exact .inr ⟨fun m hm hlt => hnone m hm (firstMinute_le hm.1 hlt), hzero⟩

end CronSchedule

end Conduit
