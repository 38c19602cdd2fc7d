import Mathlib.Algebra.Order.Ring.Int
import Mathlib.Data.List.Count

/-!
# The Gregorian Calendar

The proleptic Gregorian calendar, on all integers. A day is its distance from January 1 of
year 1; a date is a year, a month from 1 to 12 and a day of the month from 1 on. Nothing here
refers to a particular system.

Years and days are tied together by one property, `yearOf_spec`: the year of a day is the one
that has begun and whose successor has not. Months are the same one level down. Both directions
of the correspondence between days and dates follow from these two.

## Main results

* `ofDay_valid`, `toDay_ofDay`, `ofDay_toDay`: days and valid dates correspond.
* `dayNumber_ofDay`, `dayNumber_next_month`: normalising dates as arithmetic on days.
* `ofDay_of_month`: the days before the first of the next month are of the same month.
* `ofDay_add_cycle`: the calendar repeats after 400 years.
-/

namespace Calendar

/-! ### Years -/

/-- The year has a February 29. -/
def isLeap (y : ℤ) : Bool := y % 4 = 0 ∧ (y % 100 ≠ 0 ∨ y % 400 = 0)

/-- The number of days in a year. -/
def yearLength (leap : Bool) : ℕ := if leap then 366 else 365

/-- January 1 of a year. -/
def yearStart (y : ℤ) : ℤ := 365 * (y - 1) + (y - 1) / 4 - (y - 1) / 100 + (y - 1) / 400

/-- A year begins when the one before it has ended. -/
theorem yearStart_succ (y : ℤ) : yearStart (y + 1) = yearStart y + yearLength (isLeap y) := by
  unfold yearStart yearLength isLeap
  by_cases h : y % 4 = 0 ∧ (y % 100 ≠ 0 ∨ y % 400 = 0)
  · rw [if_pos (decide_eq_true h)]
    omega
  · rw [if_neg (by simpa using h)]
    omega

/-- Later years begin later. -/
theorem yearStart_mono {y y' : ℤ} (h : y ≤ y') : yearStart y ≤ yearStart y' := by
  unfold yearStart
  omega

/-- The year of a day. Four hundred years have 146097 days; the year they give on average has
begun, and the next one may have. -/
def yearOf (n : ℤ) : ℤ :=
  let y := 400 * n / 146097 + 1
  if yearStart (y + 1) ≤ n then y + 1 else y

/-- **The year of a day** has begun, and the next one has not. -/
theorem yearOf_spec (n : ℤ) : yearStart (yearOf n) ≤ n ∧ n < yearStart (yearOf n + 1) := by
  unfold yearOf
  dsimp only
  split
  · rename_i hlate
    refine ⟨hlate, ?_⟩
    unfold yearStart
    omega
  · rename_i hearly
    refine ⟨?_, not_le.mp hearly⟩
    unfold yearStart
    omega

/-- There is only one such year. -/
theorem yearOf_eq {n y : ℤ} (hbegun : yearStart y ≤ n) (hnext : n < yearStart (y + 1)) :
    yearOf n = y := by
  obtain ⟨hbegun', hnext'⟩ := yearOf_spec n
  rcases lt_trichotomy (yearOf n) y with hlt | heq | hgt
  · have hmono := yearStart_mono (show yearOf n + 1 ≤ y by omega)
    omega
  · exact heq
  · have hmono := yearStart_mono (show y + 1 ≤ yearOf n by omega)
    omega

/-! ### Months -/

/-- The number of days in a month. -/
def monthLength (leap : Bool) : ℕ → ℕ
  | 2 => if leap then 29 else 28
  | 4 | 6 | 9 | 11 => 30
  | _ => 31

/-- A leap year has no shorter months. -/
theorem monthLength_false_le (leap : Bool) (m : ℕ) : monthLength false m ≤ monthLength leap m := by
  cases leap with
  | false => exact le_refl _
  | true =>
      unfold monthLength
      split
      · decide
      all_goals exact le_refl _

/-- The number of days in the year before a month. -/
def monthStart (leap : Bool) : ℕ → ℕ
  | m + 2 => monthStart leap (m + 1) + monthLength leap (m + 1)
  | _ => 0

/-- The month of a day of the year: as many months as have begun. -/
def monthOf (leap : Bool) (day : ℕ) : ℕ :=
  (List.range' 1 12).countP fun m => monthStart leap m ≤ day

/-- A month begins when the one before it has ended. -/
theorem monthStart_succ (leap : Bool) {m : ℕ} (h : 1 ≤ m) :
    monthStart leap (m + 1) = monthStart leap m + monthLength leap m := by
  obtain ⟨k, rfl⟩ := Nat.exists_eq_add_of_le' h
  rfl

/-- The year ends with its twelfth month. -/
theorem monthStart_thirteen (leap : Bool) : monthStart leap 13 = yearLength leap := by
  cases leap <;> rfl

/-- Later months begin later. -/
theorem monthStart_mono (leap : Bool) {m m' : ℕ} (h : m ≤ m') :
    monthStart leap m ≤ monthStart leap m' := by
  induction m', h using Nat.le_induction with
  | base => exact le_refl _
  | succ k hk ih =>
      refine le_trans ih ?_
      rcases Nat.eq_zero_or_pos k with rfl | hpos
      · exact Nat.zero_le _
      · rw [monthStart_succ leap hpos]
        exact Nat.le_add_right _ _

/-- Of things that begin one after the other, one has begun last. -/
theorem exists_begun {f : ℕ → ℕ} {day n : ℕ} (hfirst : f 1 ≤ day) (hend : day < f (n + 1)) :
    ∃ k, (1 ≤ k ∧ k ≤ n) ∧ f k ≤ day ∧ day < f (k + 1) := by
  induction n with
  | zero => exact absurd hend (not_lt.mpr hfirst)
  | succ n ih =>
      by_cases h : day < f (n + 1)
      · obtain ⟨k, ⟨hone, hle⟩, hbegun, hnext⟩ := ih h
        exact ⟨k, ⟨hone, by omega⟩, hbegun, hnext⟩
      · exact ⟨n + 1, ⟨by omega, le_refl _⟩, by omega, hend⟩

/-- That many have begun. -/
theorem countP_begun {f : ℕ → ℕ} (hmono : ∀ {m m'}, m ≤ m' → f m ≤ f m') {day n k : ℕ}
    (hk : k ≤ n) (hbegun : f k ≤ day) (hnext : day < f (k + 1)) :
    (List.range' 1 n).countP (fun m => f m ≤ day) = k := by
  have hsplit : List.range' 1 n = List.range' 1 k ++ List.range' (1 + k) (n - k) := by
    rw [List.range'_append_1, Nat.add_sub_cancel' hk]
  have hbefore : (List.range' 1 k).countP (fun m => f m ≤ day) = (List.range' 1 k).length := by
    rw [List.countP_eq_length]
    intro m hm
    have hle := hmono (show m ≤ k by rw [List.mem_range'_1] at hm; omega)
    exact decide_eq_true (le_trans hle hbegun)
  have hafter : (List.range' (1 + k) (n - k)).countP (fun m => f m ≤ day) = 0 := by
    rw [List.countP_eq_zero]
    intro m hm
    have hle := hmono (show k + 1 ≤ m by rw [List.mem_range'_1] at hm; omega)
    simpa using lt_of_lt_of_le hnext hle
  rw [hsplit, List.countP_append, hbefore, hafter, List.length_range', Nat.add_zero]

/-- The month that has begun last. -/
theorem monthOf_eq {leap : Bool} {day m : ℕ} (hm : m ≤ 12) (hbegun : monthStart leap m ≤ day)
    (hnext : day < monthStart leap (m + 1)) : monthOf leap day = m :=
  countP_begun (monthStart_mono leap) hm hbegun hnext

/-- **The month of a day of the year** has begun, and the next one has not. -/
theorem monthOf_spec (leap : Bool) {day : ℕ} (h : day < yearLength leap) :
    (1 ≤ monthOf leap day ∧ monthOf leap day ≤ 12) ∧
      monthStart leap (monthOf leap day) ≤ day ∧
      day < monthStart leap (monthOf leap day + 1) := by
  rw [← monthStart_thirteen] at h
  obtain ⟨m, hm, hbegun, hnext⟩ := exists_begun (Nat.zero_le day) h
  rw [monthOf_eq hm.2 hbegun hnext]
  exact ⟨hm, hbegun, hnext⟩

/-! ### Dates -/

/-- A date of the calendar. -/
structure Date where
  year : ℤ
  month : ℕ
  day : ℕ
  deriving DecidableEq

/-- The month and the day of the month exist. -/
def Date.Valid (d : Date) : Prop :=
  (1 ≤ d.month ∧ d.month ≤ 12) ∧ 1 ≤ d.day ∧ d.day ≤ monthLength (isLeap d.year) d.month

/-- The day of a date. -/
def Date.toDay (d : Date) : ℤ :=
  yearStart d.year + monthStart (isLeap d.year) d.month + (d.day - 1)

/-- The days of its year before a day. -/
def dayOfYear (n : ℤ) : ℕ := (n - yearStart (yearOf n)).toNat

/-- The date of a day. -/
def ofDay (n : ℤ) : Date where
  year := yearOf n
  month := monthOf (isLeap (yearOf n)) (dayOfYear n)
  day := dayOfYear n - monthStart (isLeap (yearOf n))
    (monthOf (isLeap (yearOf n)) (dayOfYear n)) + 1

/-- The day of the week, from Sunday, which is 0. -/
def weekday (n : ℤ) : ℕ := ((n + 1) % 7).toNat

theorem weekday_lt (n : ℤ) : weekday n < 7 := by
  unfold weekday
  omega

/-- The day of the year is within the year. -/
theorem dayOfYear_spec (n : ℤ) :
    (dayOfYear n : ℤ) = n - yearStart (yearOf n) ∧
      dayOfYear n < yearLength (isLeap (yearOf n)) := by
  obtain ⟨hbegun, hnext⟩ := yearOf_spec n
  rw [yearStart_succ] at hnext
  unfold dayOfYear
  omega

/-- The date of a day is valid. -/
theorem ofDay_valid (n : ℤ) : (ofDay n).Valid := by
  obtain ⟨hmonth, hbegun, hnext⟩ := monthOf_spec _ (dayOfYear_spec n).2
  rw [monthStart_succ _ hmonth.1] at hnext
  refine ⟨hmonth, ?_, ?_⟩
  · exact Nat.le_add_left _ _
  · simp only [ofDay]
    omega

/-- **Days.** The day of the date of a day is that day. -/
theorem toDay_ofDay (n : ℤ) : (ofDay n).toDay = n := by
  obtain ⟨hday, hlt⟩ := dayOfYear_spec n
  obtain ⟨-, hbegun, -⟩ := monthOf_spec _ hlt
  simp only [Date.toDay, ofDay]
  omega

/-- The days of a valid date's month are days of its year. -/
theorem Date.Valid.lt_yearLength {d : Date} (h : d.Valid) :
    monthStart (isLeap d.year) d.month + (d.day - 1) < yearLength (isLeap d.year) := by
  obtain ⟨⟨hone, htwelve⟩, hday, hle⟩ := h
  have hend := monthStart_mono (isLeap d.year) (show d.month + 1 ≤ 13 by omega)
  rw [monthStart_thirteen, monthStart_succ _ hone] at hend
  omega

/-- **Dates.** The date of the day of a valid date is that date. -/
theorem ofDay_toDay {d : Date} (h : d.Valid) : ofDay d.toDay = d := by
  have hin := h.lt_yearLength
  obtain ⟨⟨hone, htwelve⟩, hday, hle⟩ := h
  have hyear : yearOf d.toDay = d.year := by
    refine yearOf_eq ?_ ?_
    · unfold Date.toDay
      omega
    · rw [yearStart_succ]
      unfold Date.toDay
      omega
  have hdoy : dayOfYear d.toDay = monthStart (isLeap d.year) d.month + (d.day - 1) := by
    have hspec := (dayOfYear_spec d.toDay).1
    rw [hyear] at hspec
    unfold Date.toDay at hspec ⊢
    omega
  have hmonth : monthOf (isLeap d.year) (dayOfYear d.toDay) = d.month := by
    refine monthOf_eq htwelve (by omega) ?_
    rw [monthStart_succ _ hone]
    omega
  have hd : dayOfYear d.toDay - monthStart (isLeap d.year) d.month + 1 = d.day := by omega
  obtain ⟨year, month, day⟩ := d
  simp only [ofDay, hyear, hmonth, hd]

/-! ### Cycles -/

/-- Leap years repeat after 400 years. -/
theorem isLeap_add_cycle (y k : ℤ) : isLeap (y + k * 400) = isLeap y := by
  unfold isLeap
  rw [decide_eq_decide]
  omega

/-- **Cycles.** The calendar repeats after 400 years, which are 146097 days. -/
theorem ofDay_add_cycle (n k : ℤ) :
    ofDay (n + k * 146097) =
      ⟨(ofDay n).year + k * 400, (ofDay n).month, (ofDay n).day⟩ := by
  have hround := toDay_ofDay n
  have hvalid : (⟨(ofDay n).year + k * 400, (ofDay n).month, (ofDay n).day⟩ : Date).Valid := by
    rw [Date.Valid, isLeap_add_cycle]
    exact ofDay_valid n
  rw [← ofDay_toDay hvalid, Date.toDay, isLeap_add_cycle]
  congr 1
  unfold Date.toDay yearStart at hround
  unfold yearStart
  dsimp only
  omega

/-- Weeks fit into cycles. -/
theorem weekday_add_cycle (n k : ℤ) : weekday (n + k * 146097) = weekday n := by
  unfold weekday
  omega

/-- A date that every year has is within the two years after the year of a day. -/
theorem exists_date (n : ℤ) (month day : ℕ) (hmonth : 1 ≤ month ∧ month ≤ 12) (hday : 1 ≤ day)
    (hlength : day ≤ monthLength false month) :
    ∃ k, n < k ∧ k ≤ n + 731 ∧ (ofDay k).month = month ∧ (ofDay k).day = day := by
  have hleap : day ≤ monthLength (isLeap (yearOf n + 1)) month :=
    le_trans hlength (monthLength_false_le _ _)
  have hvalid : (⟨yearOf n + 1, month, day⟩ : Date).Valid := ⟨hmonth, hday, hleap⟩
  have hin := hvalid.lt_yearLength
  have hspec := yearOf_spec n
  refine ⟨(⟨yearOf n + 1, month, day⟩ : Date).toDay, ?_, ?_, ?_, ?_⟩
  · unfold Date.toDay
    dsimp only
    omega
  · have hlast : ∀ leap, yearLength leap ≤ 366 := by decide
    have hthis := hlast (isLeap (yearOf n))
    have hnext := hlast (isLeap (yearOf n + 1))
    have hstart := yearStart_succ (yearOf n)
    unfold Date.toDay
    dsimp only at hin ⊢
    omega
  · rw [ofDay_toDay hvalid]
  · rw [ofDay_toDay hvalid]

/-! ### Normalised dates -/

/-- The day of a date whose month and day may lie outside their ranges: months carry into the
year, days into the month. -/
def dayNumber (year month day : ℤ) : ℤ :=
  let y := year + (month - 1) / 12
  yearStart y + monthStart (isLeap y) ((month - 1) % 12 + 1).toNat + (day - 1)

/-- Nothing carries in a date whose month exists. -/
theorem dayNumber_of_month {year : ℤ} {month : ℕ} (h : 1 ≤ month ∧ month ≤ 12) (day : ℤ) :
    dayNumber year month day = yearStart year + monthStart (isLeap year) month + (day - 1) := by
  have hcarry : ((month : ℤ) - 1) / 12 = 0 := by omega
  have hmonth : (((month : ℤ) - 1) % 12 + 1).toNat = month := by omega
  simp only [dayNumber, hcarry, hmonth, Int.add_zero]

/-- A day of the month of day `n`. -/
theorem dayNumber_ofDay (n day : ℤ) :
    dayNumber (ofDay n).year (ofDay n).month day = n + day - (ofDay n).day := by
  have hround := toDay_ofDay n
  rw [dayNumber_of_month (ofDay_valid n).1]
  unfold Date.toDay at hround
  omega

/-- The first of the month after that of day `n`. -/
theorem dayNumber_next_month (n : ℤ) :
    dayNumber (ofDay n).year ((ofDay n).month + 1) 1 =
      n - (ofDay n).day + monthLength (isLeap (ofDay n).year) (ofDay n).month + 1 := by
  have hround := toDay_ofDay n
  obtain ⟨⟨hone, htwelve⟩, -, -⟩ := ofDay_valid n
  unfold Date.toDay at hround
  have hlength := monthStart_succ (isLeap (ofDay n).year) hone
  by_cases hdecember : (ofDay n).month = 12
  · -- December carries into the next year
    have hcarry : (((ofDay n).month : ℤ) + 1 - 1) / 12 = 1 := by omega
    have hmonth : ((((ofDay n).month : ℤ) + 1 - 1) % 12 + 1).toNat = 1 := by omega
    have hthirteen : monthStart (isLeap (ofDay n).year) (12 + 1) = _ := monthStart_thirteen _
    have hjanuary : monthStart (isLeap ((ofDay n).year + 1)) 1 = 0 := rfl
    simp only [dayNumber, hcarry, hmonth, yearStart_succ, hjanuary]
    rw [hdecember] at hlength hround ⊢
    omega
  · have hvalid : 1 ≤ (ofDay n).month + 1 ∧ (ofDay n).month + 1 ≤ 12 := ⟨by omega, by omega⟩
    have hnext := @dayNumber_of_month (ofDay n).year _ hvalid 1
    rw [Nat.cast_add, Nat.cast_one] at hnext
    rw [hnext, hlength]
    push_cast
    omega

/-- **The rest of a month.** The days from `n` to the first of the next month are of the month
of `n`. -/
theorem ofDay_of_month {n k : ℤ} (hle : n ≤ k)
    (hlt : k < dayNumber (ofDay n).year ((ofDay n).month + 1) 1) :
    (ofDay k).year = (ofDay n).year ∧ (ofDay k).month = (ofDay n).month := by
  have hround := toDay_ofDay n
  obtain ⟨hmonth, hday, hlast⟩ := ofDay_valid n
  rw [dayNumber_next_month] at hlt
  have hvalid :
      (⟨(ofDay n).year, (ofDay n).month, ((ofDay n).day + (k - n)).toNat⟩ : Date).Valid := by
    refine ⟨hmonth, ?_, ?_⟩
    · dsimp only
      omega
    · dsimp only
      omega
  have hk :
      (⟨(ofDay n).year, (ofDay n).month, ((ofDay n).day + (k - n)).toNat⟩ : Date).toDay = k := by
    unfold Date.toDay at hround ⊢
    dsimp only
    omega
  have hdate := ofDay_toDay hvalid
  rw [hk] at hdate
  rw [hdate]
  exact ⟨rfl, rfl⟩

end Calendar
