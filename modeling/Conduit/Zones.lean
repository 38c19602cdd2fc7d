import Mathlib.Order.Bounds.Basic
import Conduit.Cron
import Conduit.Orbit

/-!
# Cron in Other Time Zones

`Next` builds the time it goes on from out of wall clock fields, with `time.Date` in the
location of the time it was given. At a wall clock time that a location skips, `time.Date`
returns one that is an hour or so off, and west of Greenwich it is an hour too early: the clock
of New York goes from 2:00 to 3:00 in March, and two o'clock that day is read as one o'clock.
So the search for an hour goes from 1:00 to 1:00, and on from there.

A search ends if it only goes on: if at no instant of its four years whose month, day or hour is
refused the instant of the next boundary is that instant or an earlier one. East of Greenwich,
and where the offset never changes, it always goes on. Anywhere else it ends if it finds a minute
before it comes near the next change of the offset. Neither condition is necessary. A search
that has gone back may find another way on, as `Next` does in the example of St. John's, where
the clocks once went from 0:01 to 23:01; but if the boundary is still the same where it has gone
back to, it stays there.

## Main results

* `lt_instant_of_east`: east of Greenwich `time.Date` of a later wall clock time is a later
  instant.
* `bddBelow_visited`: a search does not go ever further back where the offset was once the same
  for all the past.
* `nextEnds_of_jumpsOn`: the loop of `Next` ends if every jump goes on, or if it finds a minute
  before the offset changes, and does not if a jump comes back to its own boundary.
-/

namespace Conduit

open Orbit

/-! ### Locations -/

/-- A `time.Location`: for each second of Unix time the offset from UTC, in seconds, and the
interval in which it is in force; `none` is no bound. -/
structure Zone where
  offset : ℤ → ℤ
  start : ℤ → Option ℤ
  stop : ℤ → Option ℤ
  mem : ∀ s, (start s).all (· ≤ s) = true ∧ (stop s).all (s < ·) = true
  const : ∀ s u, (start s).all (· ≤ u) = true → (stop s).all (u < ·) = true →
    offset u = offset s ∧ start u = start s ∧ stop u = stop s

/-- The instant `u` is in the interval of the offset at `s`. -/
def Zone.covers (z : Zone) (s u : ℤ) : Bool :=
  (z.start s).all (· ≤ u) && (z.stop s).all (u < ·)

/-- An instant as the wall clock shows it, read as UTC. -/
def Zone.wall (z : Zone) (t : Time) : Time := t + z.offset (t / second) * second

/-- `time.Date` in a location: the instant, in seconds, of a wall clock time that is given in
seconds as if it were UTC. -/
def Zone.instant (z : Zone) (wall : ℤ) : ℤ :=
  let utc := wall - z.offset wall
  if z.covers wall utc then utc else wall - z.offset utc

/-- Wall clocks and `time.Date` in a location. -/
def Zone.location (z : Zone) : Location where
  wallClock t := utc.wallClock (z.wall t)
  date year month day hour := z.instant (utc.date year month day hour / second) * second

/-- The offset has been the same for all the past, up to some instant. -/
def Zone.Settled (z : Zone) : Prop := ∃ first, ∀ s < first, z.start s = none

/-- A location on or east of the meridian of Greenwich, whose offset is at most `span` and does
not change in the `span` seconds before a change. -/
structure Zone.East (z : Zone) (span : ℤ) : Prop where
  offset : ∀ s, 0 ≤ z.offset s ∧ z.offset s ≤ span
  apart : ∀ s change, z.start s = some change → ∀ u, change - span ≤ u → u < change →
    z.offset u = z.offset (change - 1)

namespace CronSchedule

/-- The wall clock time, in seconds as if it were UTC, that `Next` asks `time.Date` for at a
second of Unix time: the beginning of the next month, day or hour, whichever is refused. -/
def boundary (c : CronSchedule) (z : Zone) (s : ℤ) : Option ℤ :=
  let w := z.location.wallClock (s * second)
  if !c.monthOk w then some (utc.date w.year (w.month + 1) 1 0 / second)
  else if !c.dayOk w then some (utc.date w.year w.month (w.day + 1) 0 / second)
  else if !c.hourOk w then some (utc.date w.year w.month w.day (w.hour + 1) / second)
  else none

/-- In the four years that are searched, the instant of every boundary is a later one. -/
def JumpsOn (c : CronSchedule) (z : Zone) (t : Time) : Prop :=
  ∀ s w : ℤ, firstMinute t ≤ s * second → s * second < t + fourYears →
    c.boundary z s = some w → s < z.instant w

/-- The schedule accepts the full minute `m`, and the offset, in whole minutes, does not change from
the first minute to `m`, nor for as long as the offset is before and after. -/
structure SteadyTo (c : CronSchedule) (z : Zone) (t : Time) (m : ℤ) : Prop where
  full : m % 60 = 0
  first : firstMinute t ≤ m * second
  accepted : c.advance z.location (m * second) = none
  steady : ∃ o : ℤ, o % 60 = 0 ∧
    ∀ u : ℤ, firstMinute t ≤ (u + |o|) * second → u ≤ m + |o| → z.offset u = o

/-- The instant of the boundary is not a later one, and has the same boundary. -/
def StuckAt (c : CronSchedule) (z : Zone) (s : ℤ) : Prop :=
  ∃ w, c.boundary z s = some w ∧ z.instant w ≤ s ∧ c.boundary z (z.instant w) = some w

/-- A round of the loop of `Next`. -/
def round (c : CronSchedule) (loc : Location) (limit : Time) (t : Time) : Option Time :=
  if t < limit then c.advance loc t else none

/-- The loop of `Next` ends, for a time of the given location. -/
def NextEnds (c : CronSchedule) (loc : Location) (t : Time) : Prop :=
  ∃ rounds r, c.search loc (t + fourYears) rounds (firstMinute t) = some r

/-- The search comes back to an instant it has been at. -/
def ComesBack (c : CronSchedule) (loc : Location) (t : Time) : Prop :=
  Returns (c.round loc (t + fourYears)) (firstMinute t)

/-- The instants the search comes by. -/
def visited (c : CronSchedule) (loc : Location) (t : Time) : Set ℤ :=
  visits (c.round loc (t + fourYears)) (firstMinute t)

end CronSchedule

/-! ### Jumps -/

section Jumps

variable {c : CronSchedule} {z : Zone} {t t' : ℤ}

/-- Full hours are full seconds. -/
theorem date_div_second (year month day hour : ℤ) :
    utc.date year month day hour / second * second = utc.date year month day hour := by
  have hfull : ∀ z n h : ℤ, z % 1000000000 = 0 →
      (z + n * 86400000000000 + h * 3600000000000) / 1000000000 * 1000000000 =
        z + n * 86400000000000 + h * 3600000000000 := by
    omega
  exact hfull zeroTime _ _ (by decide)

/-- Where a round leads: a minute on, or to the instant of a wall clock time that is later than
the one at `t`, by 31 days at most. -/
theorem advance_zone (h : c.advance z.location t = some t') :
    t' = t + minute ∨ ∃ w, z.wall t < w * second ∧ w * second ≤ z.wall t + 31 * dayNs ∧
      t' = z.instant w * second := by
  have hjump : ∀ year month day hour : ℤ, z.wall t < utc.date year month day hour →
      utc.date year month day hour ≤ z.wall t + 31 * dayNs →
      ∃ w, z.wall t < w * second ∧ w * second ≤ z.wall t + 31 * dayNs ∧
        z.location.date year month day hour = z.instant w * second := by
    intro year month day hour hlt hle
    refine ⟨utc.date year month day hour / second, ?_, ?_, rfl⟩
    · rw [date_div_second]
      exact hlt
    · rw [date_div_second]
      exact hle
  unfold CronSchedule.advance at h
  dsimp only at h
  split_ifs at h
  · obtain rfl := Option.some.inj h
    obtain ⟨hlt, hle⟩ := CronSchedule.next_month_bounds (z.wall t)
    exact .inr (hjump _ _ _ _ hlt hle)
  · obtain rfl := Option.some.inj h
    obtain ⟨hlt, hle⟩ := CronSchedule.next_day_bounds (z.wall t)
    exact .inr (hjump _ _ _ _ hlt hle)
  · obtain rfl := Option.some.inj h
    obtain ⟨hlt, hle⟩ := CronSchedule.next_hour_bounds (z.wall t)
    exact .inr (hjump _ _ _ _ hlt hle)
  · exact .inl (Option.some.inj h).symm

/-- From a full second with a boundary, a round leads to the instant of the boundary. -/
theorem advance_of_boundary {s w : ℤ} (h : c.boundary z s = some w) :
    c.advance z.location (s * second) = some (z.instant w * second) := by
  unfold CronSchedule.boundary at h
  unfold CronSchedule.advance
  dsimp only at h ⊢
  split_ifs at h ⊢
  all_goals
    obtain rfl := Option.some.inj h
    rfl

/-- From a full second a round leads a minute on, or to the instant of the boundary. -/
theorem advance_seconds {s : ℤ} (h : c.advance z.location (s * second) = some t') :
    t' = (s + 60) * second ∨ ∃ w, c.boundary z s = some w ∧ t' = z.instant w * second := by
  cases hboundary : c.boundary z s with
  | some w =>
      rw [advance_of_boundary hboundary] at h
      exact .inr ⟨w, rfl, (Option.some.inj h).symm⟩
  | none =>
      unfold CronSchedule.boundary at hboundary
      unfold CronSchedule.advance at h
      dsimp only at h hboundary
      split_ifs at h hboundary
      refine .inl ((Option.some.inj h).symm.trans ?_)
      unfold minute
      exact (Int.add_mul s 60 second).symm

/-- The wall clock at a full second. -/
theorem wall_seconds (z : Zone) (s : ℤ) : z.wall (s * second) = (s + z.offset s) * second := by
  rw [Zone.wall, Int.mul_ediv_cancel s (by decide), Int.add_mul]

/-- A boundary is later than the wall clock time. -/
theorem lt_boundary {s w : ℤ} (h : c.boundary z s = some w) : s + z.offset s < w := by
  have hlater : ∀ year month day hour : ℤ,
      z.wall (s * second) < utc.date year month day hour →
      s + z.offset s < utc.date year month day hour / second := by
    intro year month day hour hlt
    rw [wall_seconds, ← date_div_second] at hlt
    exact Int.lt_of_mul_lt_mul_right hlt (by decide)
  unfold CronSchedule.boundary at h
  dsimp only at h
  split_ifs at h
  all_goals obtain rfl := Option.some.inj h
  · exact hlater _ _ _ _ (CronSchedule.next_month_bounds _).1
  · exact hlater _ _ _ _ (CronSchedule.next_day_bounds _).1
  · exact hlater _ _ _ _ (CronSchedule.next_hour_bounds _).1

/-- The boundary is where a round in UTC leads to from the wall clock time. -/
theorem advance_utc_of_boundary {s w : ℤ} (h : c.boundary z s = some w) :
    c.advance utc ((s + z.offset s) * second) = some (w * second) := by
  rw [← wall_seconds]
  unfold CronSchedule.boundary at h
  unfold CronSchedule.advance
  dsimp only [Zone.location] at h ⊢
  split_ifs at h ⊢
  all_goals
    obtain rfl := Option.some.inj h
    rw [date_div_second]

/-- A full minute, in seconds. -/
theorem fullMinute_seconds (s : ℤ) : s * second % minute = 0 ↔ s % 60 = 0 := by
  unfold minute second
  omega

/-- Where a round stops, the wall clock time is a match in UTC. -/
theorem matches_of_advance {s : ℤ} (hfull : (s + z.offset s) % 60 = 0)
    (h : c.advance z.location (s * second) = none) : c.Matches ((s + z.offset s) * second) := by
  have hutc : c.advance utc ((s + z.offset s) * second) = none := by
    rw [← wall_seconds]
    unfold CronSchedule.advance at h ⊢
    dsimp only [Zone.location] at h ⊢
    split_ifs at h ⊢
    rfl
  rcases CronSchedule.advance_spec (c := c) ((fullMinute_seconds _).mpr hfull) with
    ⟨-, hmatch⟩ | ⟨t', hgo, -⟩
  · exact hmatch
  · rw [hutc] at hgo
    cases hgo

/-- With the same offset at both, the boundary at `s` is a full minute and does not pass over an
accepted minute `m`. -/
theorem boundary_le {s m w : ℤ} (hs : (s + z.offset s) % 60 = 0) (hm : (m + z.offset m) % 60 = 0)
    (hsame : z.offset s = z.offset m) (hle : s ≤ m)
    (haccepted : c.advance z.location (m * second) = none) (hw : c.boundary z s = some w) :
    w % 60 = 0 ∧ w ≤ m + z.offset m := by
  have hutc := advance_utc_of_boundary hw
  rcases CronSchedule.advance_spec (c := c) ((fullMinute_seconds _).mpr hs) with
    ⟨hnone, -⟩ | ⟨t', hgo, -, hfull, hskips⟩
  · rw [hnone] at hutc
    cases hutc
  · rw [hgo] at hutc
    obtain rfl := Option.some.inj hutc
    refine ⟨(fullMinute_seconds w).mp hfull, not_lt.mp fun hlt => ?_⟩
    refine hskips _ ?_ ?_ (matches_of_advance hm haccepted)
    · exact Int.mul_le_mul_of_nonneg_right (by omega) (by decide)
    · exact Int.mul_lt_mul_of_pos_right hlt (by decide)

/-- The first minute is a full second. -/
theorem firstMinute_div_second (t : Time) :
    CronSchedule.firstMinute t / second * second = CronSchedule.firstMinute t := by
  unfold CronSchedule.firstMinute minute second Time Duration
  omega

/-- The offset by which the instant of a wall clock time is found is that of some instant, up to
the offset at that time read as UTC. -/
theorem Zone.instant_eq (z : Zone) (w : ℤ) :
    z.instant w = w - z.offset w ∨ z.instant w = w - z.offset (w - z.offset w) := by
  unfold Zone.instant
  dsimp only
  split
  · exact .inl rfl
  · exact .inr rfl

/-- Away from changes of the offset, the instant of a wall clock time is found by the offset. -/
theorem Zone.instant_of_offset {o w : ℤ} (hw : z.offset w = o) (hutc : z.offset (w - o) = o) :
    z.instant w = w - o := by
  rcases z.instant_eq w with hinstant | hinstant
  · rw [hinstant, hw]
  · rw [hinstant, hw, hutc]

/-- Without changes of the offset, a later wall clock time is a later instant. -/
theorem lt_instant_of_constant {o s w : ℤ} (hz : ∀ s, z.offset s = o)
    (h : s + z.offset s < w) : s < z.instant w := by
  rw [hz] at h
  rw [Zone.instant_of_offset (hz w) (hz _)]
  omega

/-- While the offset does not change, the instant of the boundary at `s` is a later full minute,
and does not pass over an accepted minute `m`. -/
theorem instant_of_steady {o s m w : ℤ} (ho : o % 60 = 0)
    (hsteady : ∀ u, s ≤ u + |o| → u ≤ m + |o| → z.offset u = o) (hs : s % 60 = 0)
    (hm : m % 60 = 0) (hle : s ≤ m) (haccepted : c.advance z.location (m * second) = none)
    (hw : c.boundary z s = some w) :
    s < z.instant w ∧ z.instant w % 60 = 0 ∧ z.instant w ≤ m := by
  have hself := neg_abs_le o
  have hself' := le_abs_self o
  have hos : z.offset s = o := hsteady s (by omega) (by omega)
  have hom : z.offset m = o := hsteady m (by omega) (by omega)
  obtain ⟨hfull, hbefore⟩ :=
    boundary_le (by omega) (by omega) (hos.trans hom.symm) hle haccepted hw
  have hafter := lt_boundary hw
  rw [Zone.instant_of_offset (hsteady w (by omega) (by omega))
    (hsteady (w - o) (by omega) (by omega))]
  omega

/-- From the last change before an instant on, the offset is the one at that instant. -/
theorem Zone.offset_of_le {s w : ℤ} (hstart : (z.start w).all (· ≤ s) = true) (hle : s ≤ w) :
    z.offset s = z.offset w := by
  refine (z.const w s hstart ?_).1
  have hstop := (z.mem w).2
  cases hbound : z.stop w with
  | none => rfl
  | some change =>
      rw [hbound, Option.all_some, decide_eq_true_eq] at hstop
      rw [Option.all_some, decide_eq_true_eq]
      omega

/-- Where the offset is not negative, the instant of a wall clock time is found by the offset in
force at that time read as UTC, if it is in force at the instant, or else by the one before. -/
theorem Zone.instant_cases {w : ℤ} (hw : 0 ≤ z.offset w) :
    ((z.start w).all (· ≤ w - z.offset w) = true ∧ z.instant w = w - z.offset w) ∨
      ∃ change, z.start w = some change ∧ w - z.offset w < change ∧ change ≤ w ∧
        z.instant w = w - z.offset (w - z.offset w) := by
  obtain ⟨hstart, hstop⟩ := z.mem w
  have hbefore : (z.stop w).all (w - z.offset w < ·) = true := by
    cases hbound : z.stop w with
    | none => rfl
    | some change =>
        rw [hbound, Option.all_some, decide_eq_true_eq] at hstop
        rw [Option.all_some, decide_eq_true_eq]
        omega
  simp only [Zone.instant, Zone.covers, hbefore, Bool.and_true]
  cases hbound : z.start w with
  | none => exact .inl ⟨rfl, if_pos rfl⟩
  | some change =>
      rw [hbound, Option.all_some, decide_eq_true_eq] at hstart
      simp only [Option.all_some, decide_eq_true_eq]
      by_cases hcover : change ≤ w - z.offset w
      · exact .inl ⟨hcover, if_pos hcover⟩
      · exact .inr ⟨change, rfl, not_le.mp hcover, hstart, if_neg hcover⟩

/-- **East of Greenwich** a later wall clock time is a later instant. -/
theorem lt_instant_of_east {span s w : ℤ} (hz : z.East span) (h : s + z.offset s < w) :
    s < z.instant w := by
  have hs := hz.offset s
  have hw := hz.offset w
  by_contra hle
  rcases Zone.instant_cases (z := z) hw.1 with
    ⟨hstart, hinstant⟩ | ⟨change, hbound, hlt, hchange, hinstant⟩
  · have hsame : z.offset s = z.offset w := by
      refine Zone.offset_of_le ?_ (by omega)
      cases hbound : z.start w with
      | none => rfl
      | some change =>
          rw [hbound, Option.all_some, decide_eq_true_eq] at hstart
          rw [Option.all_some, decide_eq_true_eq]
          omega
    omega
  · have hutc := hz.offset (w - z.offset w)
    have hbefore : z.offset (w - z.offset w) = z.offset (change - 1) :=
      hz.apart w change hbound _ (by omega) hlt
    by_cases hafter : change ≤ s
    · have hsame : z.offset s = z.offset w := by
        refine Zone.offset_of_le ?_ (by omega)
        rw [hbound]
        exact decide_eq_true hafter
      omega
    · have hsame : z.offset s = z.offset (change - 1) :=
        hz.apart w change hbound s (by omega) (by omega)
      omega

/-- Before its first change the offset is the same. -/
theorem Zone.offset_eq {first s u : ℤ} (hfirst : ∀ s < first, z.start s = none) (hs : s < first)
    (hu : u < first) : z.offset s = z.offset u := by
  have hle : ∀ s u : ℤ, s < first → u ≤ s → z.offset u = z.offset s := by
    intro s u hs hus
    refine Zone.offset_of_le ?_ hus
    rw [hfirst s hs]
    rfl
  rcases le_total s u with h | h
  · exact hle u s hu h
  · exact (hle s u hs h).symm

/-- Between two instants the offset is bounded. -/
theorem Zone.exists_bound (z : Zone) (low high : ℤ) :
    ∃ b, 0 ≤ b ∧ ∀ s, low ≤ s → s ≤ high → -b ≤ z.offset s ∧ z.offset s ≤ b := by
  obtain ⟨b, hb⟩ := ((Set.finite_Icc low high).image fun s => |z.offset s|).bddAbove
  refine ⟨max b 0, le_max_right _ _, fun s hlow hhigh => ?_⟩
  exact abs_le.mp (le_max_of_le_left (hb ⟨s, ⟨hlow, hhigh⟩, rfl⟩))

/-- Long enough before the first change of the offset every round leads on. -/
theorem lt_of_settled {first : ℤ} (hfirst : ∀ s < first, z.start s = none)
    (hbefore : t < (first - 3000000 - 2 * |z.offset (first - 1)|) * second)
    (h : c.advance z.location t = some t') : t < t' := by
  rcases advance_zone h with rfl | ⟨w, hlt, hle, rfl⟩
  · unfold minute second
    omega
  · have hoffset : ∀ s < first, z.offset s = z.offset (first - 1) := fun s hs =>
      Zone.offset_eq hfirst hs (by omega)
    generalize z.offset (first - 1) = o at hbefore hoffset
    have habs := abs_nonneg o
    have hself := neg_abs_le o
    have hself' := le_abs_self o
    have hwall : z.wall t = t + o * second := by
      rw [Zone.wall, hoffset (t / second)]
      unfold second at *
      omega
    rw [hwall] at hlt hle
    unfold second dayNs Time Duration at *
    rw [Zone.instant_of_offset (hoffset w (by omega)) (hoffset (w - o) (by omega))]
    omega

/-- From the instants between two bounds no round leads back without bound. -/
theorem exists_floor (z : Zone) (low limit : ℤ) :
    ∃ floor, ∀ c t t', low ≤ t → t < limit → CronSchedule.advance c z.location t = some t' →
      floor ≤ t' := by
  obtain ⟨b₁, hb₁, hbound₁⟩ := z.exists_bound (low / second - 1) (limit / second + 1)
  obtain ⟨b₂, hb₂, hbound₂⟩ := z.exists_bound (low / second - b₁ - 2)
    (limit / second + b₁ + 3000000)
  obtain ⟨b₃, hb₃, hbound₃⟩ := z.exists_bound (low / second - b₁ - b₂ - 2)
    (limit / second + b₁ + b₂ + 3000000)
  refine ⟨low - (b₁ + b₂ + b₃) * second, fun c t t' hlow hlimit h => ?_⟩
  rcases advance_zone h with rfl | ⟨w, hlt, hle, rfl⟩
  · unfold minute second Time Duration
    omega
  · have hwall := hbound₁ (t / second)
    rw [Zone.wall] at hlt hle
    generalize z.offset (t / second) = o at hlt hle hwall
    unfold second dayNs Time Duration at *
    have hwall' := hwall (by omega) (by omega)
    have hw := hbound₂ w (by omega) (by omega)
    have hw' := hbound₃ (w - z.offset w) (by omega) (by omega)
    rcases z.instant_eq w with hinstant | hinstant
    · rw [hinstant]
      omega
    · rw [hinstant]
      omega

/-- **Going back.** Where the offset was once the same for all the past, a search does not go
ever further back. -/
theorem bddBelow_visited (hz : z.Settled) (c : CronSchedule) (t : Time) :
    BddBelow (c.visited z.location t) := by
  obtain ⟨first, hfirst⟩ := hz
  obtain ⟨floor, hfloor⟩ := exists_floor z
    ((first - 3000000 - 2 * |z.offset (first - 1)|) * second) (t + CronSchedule.fourYears)
  refine ⟨min (CronSchedule.firstMinute t) floor, fun x hx => ?_⟩
  refine visits_invariant (I := fun u => min (CronSchedule.firstMinute t) floor ≤ u) ?_
    (min_le_left _ _) x hx
  intro u v hu hv
  obtain ⟨hlimit, hadvance⟩ := Option.ite_none_right_eq_some.mp hv
  by_cases hbefore : u < (first - 3000000 - 2 * |z.offset (first - 1)|) * second
  · exact le_trans hu (le_of_lt (lt_of_settled hfirst hbefore hadvance))
  · exact le_trans (min_le_right _ _) (hfloor c u v (not_lt.mp hbefore) hlimit hadvance)

end Jumps

/-! ### The loop of `Next` -/

/-- A search that is done after a number of rounds is a loop that has ended by then. -/
theorem search_isSome_iff (c : CronSchedule) (loc : Location) (limit : Time) (rounds : ℕ)
    (t : Time) :
    (∃ r, c.search loc limit rounds t = some r) ↔ orbit (c.round loc limit) t rounds = none := by
  induction rounds generalizing t with
  | zero => simp [CronSchedule.search, orbit]
  | succ rounds ih =>
      rw [orbit_succ, CronSchedule.search, CronSchedule.round]
      by_cases hlimit : t < limit
      · rw [if_pos hlimit, if_pos hlimit]
        cases c.advance loc t with
        | none => simp
        | some t' => exact ih t'
      · simp [hlimit]

/-- The loop of `Next` is a loop over instants. -/
theorem nextEnds_iff_ends (c : CronSchedule) (loc : Location) (t : Time) :
    c.NextEnds loc t ↔
      Ends (c.round loc (t + CronSchedule.fourYears)) (CronSchedule.firstMinute t) :=
  exists_congr fun rounds => search_isSome_iff c loc _ rounds _

/-- The loop stops at its limit. -/
theorem round_limit (c : CronSchedule) (loc : Location) {limit x : Time} (h : limit ≤ x) :
    c.round loc limit x = none :=
  if_neg (not_lt.mpr h)

/-- A search ends if the seconds it comes to have a property with which every boundary is a later
instant. -/
theorem nextEnds_of_invariant {z : Zone} {c : CronSchedule} {t : Time} {I : ℤ → Prop}
    (hfirst : ∀ s, s * second = CronSchedule.firstMinute t → I s)
    (hminute : ∀ s, I s → c.advance z.location (s * second) ≠ none → I (s + 60))
    (hjump : ∀ s w, I s → s * second < t + CronSchedule.fourYears → c.boundary z s = some w →
      s < z.instant w ∧ I (z.instant w)) :
    c.NextEnds z.location t := by
  have hround : ∀ s y, I s → c.round z.location (t + CronSchedule.fourYears) (s * second) = some y →
      ∃ s', y = s' * second ∧ s < s' ∧ I s' := by
    intro s y hs hy
    obtain ⟨hlimit, hadvance⟩ := Option.ite_none_right_eq_some.mp hy
    rcases advance_seconds hadvance with rfl | ⟨w, hw, rfl⟩
    · refine ⟨s + 60, rfl, Int.lt_add_of_pos_right s (by decide), hminute s hs ?_⟩
      rw [hadvance]
      exact Option.some_ne_none _
    · exact ⟨z.instant w, rfl, hjump s w hs hlimit hw⟩
  have hvisits : ∀ x ∈ c.visited z.location t, ∃ s, x = s * second ∧ I s := by
    refine visits_invariant ?_
      ⟨_, (firstMinute_div_second t).symm, hfirst _ (firstMinute_div_second t)⟩
    rintro x y ⟨s, rfl, hs⟩ hy
    obtain ⟨s', rfl, -, hs'⟩ := hround s y hs hy
    exact ⟨s', rfl, hs'⟩
  refine (nextEnds_iff_ends _ _ _).mpr (ends_of_lt (fun x hx => round_limit c _ hx) ?_)
  intro x hx y hy
  obtain ⟨s, rfl, hs⟩ := hvisits x hx
  obtain ⟨s', rfl, hlt, -⟩ := hround s y hs hy
  exact Int.mul_lt_mul_of_pos_right hlt (by decide)

/-- A later second is at or after an instant, too. -/
theorem le_seconds {x : Time} {s s' : ℤ} (hx : x ≤ s * second) (hle : s ≤ s') : x ≤ s' * second :=
  hx.trans (Int.mul_le_mul_of_nonneg_right hle (by decide))

/-- Where every boundary is a later instant, the search ends. -/
theorem nextEnds_of_later {z : Zone} {c : CronSchedule} {t : Time} (h : c.JumpsOn z t) :
    c.NextEnds z.location t := by
  refine nextEnds_of_invariant (I := fun s => CronSchedule.firstMinute t ≤ s * second)
    (fun s hs => hs.ge) (fun s hs _ => ?_) (fun s w hs hlimit hw => ?_)
  · exact le_seconds hs (Int.le_add_of_nonneg_right (by decide))
  · have hlt := h s w hs hlimit hw
    exact ⟨hlt, le_seconds hs hlt.le⟩

/-- Before the offset changes, the search ends at an accepted minute. -/
theorem nextEnds_of_steadyTo {z : Zone} {c : CronSchedule} {t : Time} {m : ℤ}
    (h : c.SteadyTo z t m) : c.NextEnds z.location t := by
  obtain ⟨o, ho, hsteady⟩ := h.steady
  have hm := h.full
  -- the search comes by full minutes only, and does not pass over `m`
  refine nextEnds_of_invariant
    (I := fun s => s % 60 = 0 ∧ CronSchedule.firstMinute t ≤ s * second ∧ s ≤ m) ?_ ?_ ?_
  · intro s hs
    refine ⟨?_, hs.ge, ?_⟩
    · rw [← fullMinute_seconds, hs]
      exact (CronSchedule.firstMinute_spec t).1
    · exact Int.le_of_mul_le_mul_right (hs.trans_le h.first) (by decide)
  · rintro s ⟨hfull, hs, hle⟩ hgo
    have hne : s ≠ m := by
      rintro rfl
      exact hgo h.accepted
    exact ⟨by omega, le_seconds hs (by omega), by omega⟩
  · rintro s w ⟨hfull, hs, hle⟩ - hw
    obtain ⟨hlt, hfull', hle'⟩ := instant_of_steady ho
      (fun u hu => hsteady u (le_seconds hs hu)) hfull hm hle h.accepted hw
    exact ⟨hlt, hfull', le_seconds hs hlt.le, hle'⟩

/-- A search that begins where its boundary comes back to itself does not end. -/
theorem not_nextEnds_of_stuckAt {z : Zone} {c : CronSchedule} {s : ℤ} {t : Time}
    (hfirst : CronSchedule.firstMinute t = s * second) (h : c.StuckAt z s) :
    ¬ c.NextEnds z.location t := by
  obtain ⟨w, hw, hle, hsame⟩ := h
  have hbefore : s * second < t + CronSchedule.fourYears := by
    rw [← hfirst]
    unfold CronSchedule.firstMinute CronSchedule.fourYears minute second Time Duration
    omega
  have hround : ∀ u ≤ s, c.boundary z u = some w →
      c.round z.location (t + CronSchedule.fourYears) (u * second) =
        some (z.instant w * second) := by
    intro u hu hboundary
    have hlimit : u * second < t + CronSchedule.fourYears :=
      lt_of_le_of_lt (Int.mul_le_mul_of_nonneg_right hu (by decide)) hbefore
    rw [CronSchedule.round, if_pos hlimit, advance_of_boundary hboundary]
  rw [nextEnds_iff_ends, hfirst]
  refine Returns.not_ends ⟨1, 2, z.instant w * second, by decide, ?_, ?_⟩
  · rw [orbit_succ, hround s le_rfl hw]
    rfl
  · rw [orbit_succ, hround s le_rfl hw, Option.bind_some, orbit_succ, hround _ hle hsame]
    rfl

/-- A location whose offset changes once. -/
def oneChange (change before later : ℤ) : Zone where
  offset s := if s < change then before else later
  start s := if s < change then none else some change
  stop s := if s < change then some change else none
  mem s := by
    by_cases hs : s < change
    · simp [hs]
    · simp [hs, not_lt.mp hs]
  const s u := by
    by_cases hs : s < change
    · intro _ hstop
      have hu : u < change := by simpa [hs] using hstop
      simp [hs, hu]
    · intro hstart _
      have hu : ¬ u < change := by simpa [hs] using hstart
      simp [hs, hu]

theorem east_oneChange {change before later span : ℤ} (hbefore : 0 ≤ before ∧ before ≤ span)
    (hlater : 0 ≤ later ∧ later ≤ span) : (oneChange change before later).East span where
  offset s := by
    simp only [oneChange]
    split
    · exact hbefore
    · exact hlater
  apart s change' hstart u _ hu := by
    simp only [oneChange] at hstart ⊢
    split at hstart
    · cases hstart
    · obtain rfl := Option.some.inj hstart
      rw [if_pos hu, if_pos (by omega)]

/-- Berlin around March 29, 2026, when its clocks go from 2:00 to 3:00. -/
def berlin : Zone := oneChange 1774746000 3600 7200

/-- New York around March 8, 2026, when its clocks go from 2:00 to 3:00. -/
def newYork : Zone := oneChange 1772953200 (-18000) (-14400)

/-- St. John's around November 2, 2008, when its clocks went from 0:01 to 23:01. -/
def stJohns : Zone := oneChange 1225593060 (-9000) (-12600)

/-- The expression of an entry for every noon. -/
def noon : Strings.Bytes := Strings.ascii ['0', ' ', '1', '2', ' ', '*', ' ', '*', ' ', '*']

/-- After the change, from eight o'clock, it ends at noon. -/
example : ∃ c, parseCron noon = .ok c ∧ c.NextEnds newYork.location 1772971200000000000 := by
  have haccepted : (parseCron noon).toOption.any (fun c =>
      c.advance newYork.location (1772985600 * second) = none) = true := by
    decide +kernel
  cases hparse : parseCron noon with
  | error e =>
      rw [hparse] at haccepted
      cases haccepted
  | ok c =>
      rw [hparse] at haccepted
      refine ⟨c, rfl, nextEnds_of_steadyTo (m := 1772985600)
        ⟨by decide, by decide, of_decide_eq_true haccepted, -14400, by decide, ?_⟩⟩
      intro u hu _
      have hfirst : CronSchedule.firstMinute 1772971200000000000 = 1772971260 * second := by decide
      rw [hfirst] at hu
      have hafter := Int.le_of_mul_le_mul_right hu (by decide)
      have habs : |(-14400 : ℤ)| = 14400 := by decide
      exact if_neg (by omega)

/-- In St. John's, from half past eleven of the second evening of November 1, the search for noon of
November 2 goes back to midnight, before the change, and then on. -/
example :
    (parseCron (Strings.ascii
      ['0', ' ', '1', '2', ' ', '2', ' ', '1', '1', ' ', '*'])).toOption.any (fun c =>
        c.boundary stJohns 1225594800 = some 1225584000 ∧
        stJohns.instant 1225584000 = 1225593000 ∧
        c.search stJohns.location (1225594740000000000 + CronSchedule.fourYears) 14
          (CronSchedule.firstMinute 1225594740000000000) = some 1225639800000000000) = true := by
  decide +kernel

/-- The search for half past midnight goes from the minute after midnight back to midnight. -/
example :
    (parseCron (Strings.ascii
      ['3', '0', ' ', '0', ' ', '2', ' ', '1', '1', ' ', '*'])).toOption.any (fun c =>
        c.advance stJohns.location 1225593000000000000 = some 1225593060000000000 ∧
        c.advance stJohns.location 1225593060000000000 = some 1225593000000000000) = true := by
  decide +kernel

end Conduit
