import Conduit.Cron
import Conduit.Transition

/-!
# The Scheduler

`Scheduler.Register` and `Scheduler.dispatch`. A tick fires every enabled entry whose next
scheduled minute, counted from its last run, has come. Last runs are kept by name and outlive
the entry: registering a name again under another expression keeps them.

An entry that has never run has the zero time for its last run, so its next scheduled minute is
one of the first years of the calendar, and the first tick fires it whatever its expression
says. From then on it fires when it is due: exactly at the first tick after each scheduled
minute.

## Main results

* `lastRun_eq`: the last run of a name is its last firing, or the zero time.
* `firesWhenDue_iff`: entries fire only when due exactly when no tick finds an enabled entry
  that has never fired before its first scheduled minute.
* `minutes_covered`: after its first firing, an entry misses no scheduled minute and uses none
  twice.
-/

namespace Conduit

open Strings Transition

/-- `scheduler.Entry`, as far as `Register` and `dispatch` read it. -/
structure CronEntry where
  name : Bytes
  cron : Bytes
  enabled : Bool

/-- The errors of `Register`. -/
inductive RegisterError
  | nameRequired
  | invalidCron (cron : Bytes) (e : CronError)
  deriving DecidableEq

/-- The checks of `Register`, and the schedule it stores. -/
def register (entry : CronEntry) : Except RegisterError CronSchedule :=
  if entry.name = [] then .error .nameRequired
  else (parseCron entry.cron).mapError (.invalidCron entry.cron)

/-- `Scheduler`, with the latest reading of its clock. `entries` holds the two maps of entries
and schedules, which `Register` fills together; a name without a last run has the zero time. -/
structure Scheduler where
  entries : Bytes → Option (CronEntry × CronSchedule)
  lastRun : Bytes → Time
  clock : Time

/-- `New`. No clock reads less than the zero time. -/
def Scheduler.new : Scheduler where
  entries _ := none
  lastRun _ := zeroTime
  clock := zeroTime

/-- A call of `Register` or a tick of `dispatch`, with the time it happens at. -/
inductive ScheduleAct
  | register (now : Time) (entry : CronEntry)
  | tick (now : Time)

/-- When an action happens. -/
def ScheduleAct.time : ScheduleAct → Time
  | .register now _ => now
  | .tick now => now

/-- `dispatch` at time `now` fires the entry under the name. -/
def Scheduler.fires (s : Scheduler) (now : Time) (name : Bytes) : Bool :=
  match s.entries name with
  | none => false
  | some (entry, sched) =>
    entry.enabled && sched.next (s.lastRun name) ≠ zeroTime &&
      sched.next (s.lastRun name) ≤ now

/-- The state after an action. -/
def Scheduler.after (s : Scheduler) : ScheduleAct → Scheduler
  | .register now entry =>
    match Conduit.register entry with
    | .error _ => { s with clock := now }
    | .ok sched =>
      { s with
        entries := fun name => if name = entry.name then some (entry, sched) else s.entries name
        clock := now }
  | .tick now =>
    { s with
      lastRun := fun name => if s.fires now name then now else s.lastRun name
      clock := now }

/-- One action; the clock does not go back. -/
def scheduleStep (s : Scheduler) (a : ScheduleAct) : Option Scheduler :=
  if a.time < s.clock then none else some (s.after a)

/-! ### Firings and registrations -/

/-- The firing of the name by an action. -/
def firing (name : Bytes) (s : Scheduler) : ScheduleAct → List Time
  | .tick now => if s.fires now name then [now] else []
  | .register _ _ => []

/-- The registration of the name by an action. -/
def registration (name : Bytes) (_ : Scheduler) : ScheduleAct → List Time
  | .register now entry => if entry.name = name ∧ (register entry).isOk then [now] else []
  | .tick _ => []

/-- The times at which the name has fired. -/
def firings (name : Bytes) (as : List ScheduleAct) : List Time :=
  logSteps scheduleStep (firing name) .new as

/-- The times at which the name has been registered. -/
def registrations (name : Bytes) (as : List ScheduleAct) : List Time :=
  logSteps scheduleStep (registration name) .new as

/-- The time from which an entry waits: its previous firing, or else its registration. -/
def waitsSince (name : Bytes) (as : List ScheduleAct) : Option Time :=
  (firings name as).getLast? <|> (registrations name as).getLast?

/-- A scheduled minute lies after `b`, at the latest at `now`. -/
def CronSchedule.Due (sched : CronSchedule) (b now : Time) : Prop :=
  ∃ m, sched.Matches m ∧ b < m ∧ m ≤ now

section Step

variable {name : Bytes} {as : List ScheduleAct} {s s' : Scheduler} {a : ScheduleAct}

theorem scheduleStep_some (h : scheduleStep s a = some s') :
    s.clock ≤ a.time ∧ s' = s.after a := by
  unfold scheduleStep at h
  split at h
  · cases h
  · rename_i hclock
    exact ⟨not_lt.mp hclock, (Option.some.inj h).symm⟩

/-- An action reads its clock. -/
theorem clock_after (s : Scheduler) (a : ScheduleAct) : (s.after a).clock = a.time := by
  cases a with
  | register now entry =>
      simp only [Scheduler.after]
      split <;> rfl
  | tick now => rfl

/-- The last run after an action is the firing, if there is one. -/
theorem lastRun_after (name : Bytes) (s : Scheduler) (a : ScheduleAct) :
    (s.after a).lastRun name = ((firing name s a).getLast?).getD (s.lastRun name) := by
  cases a with
  | register now entry =>
      simp only [Scheduler.after, firing]
      split <;> rfl
  | tick now =>
      simp only [Scheduler.after, firing]
      split <;> rfl

/-- **Last runs.** The last run of a name is its last firing, or the zero time. -/
theorem lastRun_eq (name : Bytes) (h : exec scheduleStep .new as = some s) :
    s.lastRun name = ((firings name as).getLast?).getD zeroTime := by
  refine exec_history
    (H := fun as s => s.lastRun name = ((firings name as).getLast?).getD zeroTime) rfl ?_ h
  intro as u a v hu hold ha
  have hlog : firings name (as ++ [a]) = firings name as ++ firing name u a :=
    logSteps_concat hu ha
  obtain ⟨-, rfl⟩ := scheduleStep_some ha
  rw [lastRun_after, hold, hlog, List.getLast?_append]
  cases (firing name u a).getLast? <;> rfl

/-- Neither the clock nor a last run is before the zero time. -/
theorem zeroTime_le (h : exec scheduleStep .new as = some s) :
    zeroTime ≤ s.clock ∧ ∀ name, zeroTime ≤ s.lastRun name := by
  refine exec_invariant (I := fun s => zeroTime ≤ s.clock ∧ ∀ name, zeroTime ≤ s.lastRun name)
    ?_ ⟨le_refl _, fun _ => le_refl _⟩ h
  rintro s a s' ⟨hclock, hlast⟩ ha
  obtain ⟨hle, rfl⟩ := scheduleStep_some ha
  rw [clock_after]
  refine ⟨le_trans hclock hle, fun name => ?_⟩
  rw [lastRun_after]
  cases a with
  | register now entry => exact hlast name
  | tick now =>
      simp only [firing]
      split
      · exact le_trans hclock hle
      · exact hlast name

/-- Only what has an entry is fired. -/
theorem entry_of_fires {now : Time} (h : s.fires now name = true) :
    ∃ entry sched, s.entries name = some (entry, sched) := by
  unfold Scheduler.fires at h
  split at h
  · cases h
  · exact ⟨_, _, ‹_›⟩

/-- An enabled entry is fired when its next scheduled minute has come. -/
theorem fires_iff {now : Time} {entry : CronEntry} {sched : CronSchedule}
    (hentry : s.entries name = some (entry, sched)) :
    s.fires now name = true ↔ entry.enabled = true ∧
      sched.next (s.lastRun name) ≠ zeroTime ∧ sched.next (s.lastRun name) ≤ now := by
  simp only [Scheduler.fires, hentry, Bool.and_eq_true, decide_eq_true_eq, and_assoc]

end Step

/-- A next scheduled minute that has come is due. -/
theorem CronSchedule.due_of_next {sched : CronSchedule} {b now : Time}
    (hzero : sched.next b ≠ zeroTime) (hnow : sched.next b ≤ now) : sched.Due b now := by
  rcases (sched.next_isLeast b).2 with ⟨hleast, -⟩ | ⟨-, hnone⟩
  · exact ⟨sched.next b, hleast.1.1, hleast.1.2, hnow⟩
  · exact absurd hnone hzero

/-! ### Firing when due -/

/-- Whenever a tick fires an entry, a scheduled minute has come since its previous firing, or
since its registration if it has not fired before. -/
def FiresWhenDue (as : List ScheduleAct) : Prop :=
  ∀ pre now post s s' name entry sched, as = pre ++ .tick now :: post →
    exec scheduleStep .new pre = some s → scheduleStep s (.tick now) = some s' →
    s.entries name = some (entry, sched) → s.fires now name = true →
      ∃ b, waitsSince name pre = some b ∧ sched.Due b now

/-- Whenever a tick finds an enabled entry that has never fired and has a scheduled minute in the
first years of the calendar, one has come since its registration. -/
def NoEarlyStart (as : List ScheduleAct) : Prop :=
  ∀ pre now post s s' name entry sched, as = pre ++ .tick now :: post →
    exec scheduleStep .new pre = some s → scheduleStep s (.tick now) = some s' →
    s.entries name = some (entry, sched) → entry.enabled = true → firings name pre = [] →
    sched.next zeroTime ≠ zeroTime → sched.next zeroTime ≤ now →
      ∃ b, (registrations name pre).getLast? = some b ∧ sched.Due b now

/-- **Entries fire only when due** exactly when no tick comes too early for an entry that has
never fired. -/
theorem firesWhenDue_iff (as : List ScheduleAct) : FiresWhenDue as ↔ NoEarlyStart as := by
  constructor
  · intro hdue pre now post s s' name entry sched has hpre hnow hentry henabled hnone hzero hcome
    have hlast := lastRun_eq name hpre
    rw [hnone, List.getLast?_nil, Option.getD_none] at hlast
    have hfires : s.fires now name = true := by
      rw [fires_iff hentry, hlast]
      exact ⟨henabled, hzero, hcome⟩
    obtain ⟨b, hb, hb'⟩ := hdue pre now post s s' name entry sched has hpre hnow hentry hfires
    rw [waitsSince, hnone] at hb
    exact ⟨b, hb, hb'⟩
  · intro hearly pre now post s s' name entry sched has hpre hnow hentry hfires
    obtain ⟨henabled, hzero, hcome⟩ := (fires_iff hentry).mp hfires
    have hlast := lastRun_eq name hpre
    cases hfired : (firings name pre).getLast? with
    | none =>
        rw [hfired, Option.getD_none] at hlast
        rw [hlast] at hzero hcome
        obtain ⟨b, hb, hdue⟩ := hearly pre now post s s' name entry sched has hpre hnow hentry
          henabled (List.getLast?_eq_none_iff.mp hfired) hzero hcome
        exact ⟨b, by rw [waitsSince, hfired]; exact hb, hdue⟩
    | some b =>
        rw [hfired, Option.getD_some] at hlast
        rw [hlast] at hzero hcome
        exact ⟨b, by rw [waitsSince, hfired]; rfl, CronSchedule.due_of_next hzero hcome⟩

/-- A yearly entry for January 1. -/
def yearly : CronEntry where
  name := ascii ['y']
  cron := ascii ['0', ' ', '0', ' ', '1', ' ', '1', ' ', '*']
  enabled := true

/-- It is registered on March 1, 2026, and a minute later there is a tick. -/
def yearlyInMarch : List ScheduleAct :=
  [.register 1772323200000000000 yearly, .tick 1772323260000000000]

/-- The yearly entry is fired in March. -/
theorem not_firesWhenDue_yearlyInMarch : ¬ FiresWhenDue yearlyInMarch := by
  intro hdue
  have hfires : (Scheduler.new.after (.register 1772323200000000000 yearly)).fires
      1772323260000000000 yearly.name = true := by decide +kernel
  obtain ⟨entry, sched, hentry⟩ := entry_of_fires hfires
  obtain ⟨b, hb, m, hmatch, hlt, hle⟩ := hdue [.register 1772323200000000000 yearly]
    1772323260000000000 [] _ _ yearly.name entry sched rfl rfl rfl hentry hfires
  have hsince : waitsSince yearly.name [.register 1772323200000000000 yearly] =
      some 1772323200000000000 := by decide +kernel
  rw [hb] at hsince
  obtain rfl := Option.some.inj hsince
  -- the only full minute after the registration is that of the tick
  obtain rfl : m = 1772323260000000000 :=
    le_antisymm hle (CronSchedule.firstMinute_le hmatch.1 hlt)
  have hnot : ((Scheduler.new.after (.register 1772323200000000000 yearly)).entries
      yearly.name).all (fun e => !decide (e.2.Matches 1772323260000000000)) = true := by
    decide +kernel
  rw [hentry] at hnot
  simp [hmatch] at hnot

/-! ### Covering every minute -/

/-- The action registers the name. -/
def ScheduleAct.registers (name : Bytes) : ScheduleAct → Bool
  | .register _ entry => entry.name = name
  | .tick _ => false

/-- Each firing of `fs`, which follow a firing at `b`, is justified by a scheduled minute of `ms`
that lies after the previous firing, at the latest at its own. -/
def CronSchedule.Justifies (sched : CronSchedule) : Time → List Time → List Time → Prop
  | _, [], [] => True
  | b, f :: fs, m :: ms => sched.Matches m ∧ b < m ∧ m ≤ f ∧ sched.Justifies f fs ms
  | _, _, _ => False

section Cover

variable {name : Bytes} {as : List ScheduleAct} {s s' : Scheduler} {a : ScheduleAct}
  {sched : CronSchedule}

/-- One more firing needs one more minute. -/
theorem justifies_concat {b f m : Time} {fs ms : List Time} (h : sched.Justifies b fs ms)
    (hmatch : sched.Matches m) (hlt : (fs.getLast?).getD b < m) (hle : m ≤ f) :
    sched.Justifies b (fs ++ [f]) (ms ++ [m]) := by
  induction fs generalizing b ms with
  | nil =>
      cases ms with
      | nil => exact ⟨hmatch, hlt, hle, trivial⟩
      | cons => cases h
  | cons f' fs ih =>
      cases ms with
      | nil => cases h
      | cons m' ms =>
          obtain ⟨hmatch', hlt', hle', hrest⟩ := h
          refine ⟨hmatch', hlt', hle', ih hrest ?_⟩
          rw [List.getLast?_cons] at hlt
          exact hlt

/-- The minutes used so far are not after the last firing. -/
theorem le_of_justifies {b m : Time} {fs ms : List Time} (h : sched.Justifies b fs ms)
    (hm : m ∈ ms) : b < m ∧ m ≤ (fs.getLast?).getD b := by
  induction fs generalizing b m ms with
  | nil =>
      cases ms with
      | nil => cases hm
      | cons => cases h
  | cons f fs ih =>
      cases ms with
      | nil => cases hm
      | cons m' ms =>
          obtain ⟨-, hlt, hle, hrest⟩ := h
          rw [List.getLast?_cons, Option.getD_some]
          have hlast : f ≤ (fs.getLast?).getD f := by
            cases ms with
            | nil =>
                cases fs with
                | nil => exact le_refl _
                | cons => cases hrest
            | cons m'' ms =>
                have hnext := ih hrest List.mem_cons_self
                exact le_of_lt (lt_of_lt_of_le hnext.1 hnext.2)
          rcases List.mem_cons.mp hm with rfl | hm
          · exact ⟨hlt, le_trans hle hlast⟩
          · obtain ⟨hlt', hle'⟩ := ih hrest hm
            exact ⟨lt_of_lt_of_le hlt (le_trans hle (le_of_lt hlt')), hle'⟩

/-- An action that does not register the name leaves its entry. -/
theorem entries_after (h : a.registers name = false) :
    (s.after a).entries name = s.entries name := by
  cases a with
  | tick now => rfl
  | register now entry =>
      simp only [Scheduler.after]
      split
      · rfl
      · have hne : name ≠ entry.name := fun heq => by
          simp [ScheduleAct.registers, heq] at h
        simp only [if_neg hne]

/-- So do any number of them. -/
theorem entries_of_exec (h : exec scheduleStep s as = some s')
    (hnone : as.countP (·.registers name) = 0) : s'.entries name = s.entries name := by
  refine AllSteps.exec_invariant (I := fun u => u.entries name = s.entries name)
    (P := fun _ a _ => a.registers name = false) ?_ ?_ rfl h
  · intro u a v hu ha hreg
    obtain ⟨-, rfl⟩ := scheduleStep_some ha
    rw [entries_after hreg, hu]
  · rintro pre a post u v rfl - -
    have hall := List.countP_eq_zero.mp hnone a (by simp)
    simpa using hall

/-- A name that has an entry has been registered. -/
theorem registered_of_entries (h : exec scheduleStep .new as = some s)
    (hentry : s.entries name ≠ none) : 1 ≤ as.countP (·.registers name) := by
  by_contra hnone
  exact hentry (entries_of_exec h (by omega))

/-- A name that has fired has been registered. -/
theorem registered_of_firing (h : exec scheduleStep .new as = some s)
    (hfired : firings name as ≠ []) : 1 ≤ as.countP (·.registers name) := by
  obtain ⟨f, fs, hfs⟩ := List.exists_cons_of_ne_nil hfired
  have hmem : f ∈ firings name as := by rw [hfs]; exact List.mem_cons_self
  obtain ⟨pre, a, post, u, v, rfl, hpre, ha, hf⟩ := (mem_logSteps_iff h).mp hmem
  cases a with
  | register now entry => cases hf
  | tick now =>
      simp only [firing] at hf
      split at hf
      · rename_i hfires
        obtain ⟨entry, sched, hentry⟩ := entry_of_fires hfires
        have hone := registered_of_entries hpre (by rw [hentry]; exact Option.some_ne_none _)
        rw [List.countP_append]
        omega
      · cases hf

/-- The firings of an entry registered once are justified one after the other. -/
def JustifiedSoFar (name : Bytes) (as : List ScheduleAct) (s : Scheduler) : Prop :=
  as.countP (·.registers name) ≤ 1 → ∀ entry sched f fs, s.entries name = some (entry, sched) →
    firings name as = f :: fs → ∃ ms : List Time, ms.Pairwise (· < ·) ∧ sched.Justifies f fs ms

/-- A tick that fires an entry again is justified by a minute that no earlier firing used. -/
theorem justified_again {entry : CronEntry} {now f : Time} {fs ms : List Time}
    (hs : exec scheduleStep .new as = some s) (hentry : s.entries name = some (entry, sched))
    (hfs : firings name as = f :: fs) (hfires : s.fires now name = true)
    (hsorted : ms.Pairwise (· < ·)) (hms : sched.Justifies f fs ms) :
    ∃ ms : List Time, ms.Pairwise (· < ·) ∧ sched.Justifies f (fs ++ [now]) ms := by
  obtain ⟨-, hzero, hcome⟩ := (fires_iff hentry).mp hfires
  have hlast : s.lastRun name = (fs.getLast?).getD f := by
    rw [lastRun_eq _ hs, hfs, List.getLast?_cons, Option.getD_some]
  obtain ⟨m, hmatch, hlt, hle⟩ := CronSchedule.due_of_next hzero hcome
  rw [hlast] at hlt
  refine ⟨ms ++ [m], ?_, justifies_concat hms hmatch hlt hle⟩
  rw [List.pairwise_append]
  refine ⟨hsorted, List.pairwise_singleton _ _, ?_⟩
  intro x hx y hy
  obtain rfl := List.mem_singleton.mp hy
  exact lt_of_le_of_lt (le_of_justifies hms hx).2 hlt

theorem justified_of_exec (h : exec scheduleStep .new as = some s) :
    JustifiedSoFar name as s := by
  refine exec_history (H := JustifiedSoFar name) ?_ ?_ h
  · intro _ entry sched f fs _ hfs
    cases hfs
  · intro as u a v hu hold ha hone entry sched f fs hentry hfs
    have hlog : firings name (as ++ [a]) = firings name as ++ firing name u a :=
      logSteps_concat hu ha
    obtain ⟨-, rfl⟩ := scheduleStep_some ha
    rw [List.countP_append, List.countP_singleton] at hone
    rw [hlog] at hfs
    by_cases hreg : a.registers name = true
    · -- the only registration: nothing has fired before it
      rw [if_pos hreg] at hone
      have hnone : firings name as = [] := by
        by_contra hfired
        have hpos := registered_of_firing hu hfired
        omega
      cases a with
      | register now entry' =>
          rw [hnone] at hfs
          cases hfs
      | tick now => cases hreg
    · have hsame := entries_after (s := u) (by simpa using hreg)
      rw [hsame] at hentry
      have hold' := hold (by omega) entry sched
      cases a with
      | register now entry' =>
          rw [firing, List.append_nil] at hfs
          exact hold' f fs hentry hfs
      | tick now =>
          simp only [firing] at hfs
          split at hfs
          · rename_i hfires
            cases hbefore : firings name as with
            | nil =>
                rw [hbefore] at hfs
                obtain ⟨rfl, rfl⟩ := List.cons.inj hfs
                exact ⟨[], List.Pairwise.nil, trivial⟩
            | cons f' fs' =>
                rw [hbefore, List.cons_append] at hfs
                obtain ⟨rfl, rfl⟩ := List.cons.inj hfs
                obtain ⟨ms, hsorted, hms⟩ := hold' f' fs' hentry hbefore
                exact justified_again hu hentry hbefore hfires hsorted hms
          · rw [List.append_nil] at hfs
            exact hold' f fs hentry hfs

/-- While no tick reaches `m`, the last run stays between a firing at `b` and `m`. -/
theorem lastRun_mem (name : Bytes) {b m : Time} (h : exec scheduleStep s as = some s')
    (hclock : b ≤ s.clock) (hlast : b ≤ s.lastRun name ∧ s.lastRun name < m)
    (hticks : ∀ t, .tick t ∈ as → t < m) :
    b ≤ s'.lastRun name ∧ s'.lastRun name < m := by
  refine (AllSteps.exec_invariant
    (I := fun u => b ≤ u.clock ∧ b ≤ u.lastRun name ∧ u.lastRun name < m)
    (P := fun _ a _ => ∀ t, a = .tick t → t < m) ?_ ?_ ⟨hclock, hlast⟩ h).2
  · rintro u a v ⟨hclock, hlast⟩ ha hearly
    obtain ⟨hle, rfl⟩ := scheduleStep_some ha
    rw [clock_after, lastRun_after]
    refine ⟨le_trans hclock hle, ?_⟩
    cases a with
    | register now entry => exact hlast
    | tick now =>
        simp only [firing]
        split
        · exact ⟨le_trans hclock hle, hearly now rfl⟩
        · exact hlast
  · rintro pre a post u v rfl - - t rfl
    exact hticks t (by simp)

/-- A scheduled minute within the reach of the search makes an entry fire. -/
theorem fires_of_matches {now m : Time} {entry : CronEntry}
    (hs : exec scheduleStep .new as = some s) (hentry : s.entries name = some (entry, sched))
    (henabled : entry.enabled = true) (hmatch : sched.Matches m) (hlt : s.lastRun name < m)
    (hreach : m < s.lastRun name + CronSchedule.fourYears) (hle : m ≤ now) :
    s.fires now name = true := by
  rcases (sched.next_isLeast (s.lastRun name)).2 with ⟨hleast, -⟩ | ⟨hnone, -⟩
  · have hbefore : sched.next (s.lastRun name) ≤ m := hleast.2 ⟨hmatch, hlt⟩
    have hzero := (zeroTime_le hs).2 name
    refine (fires_iff hentry).mpr ⟨henabled, ?_, le_trans hbefore hle⟩
    exact ne_of_gt (lt_of_le_of_lt hzero hleast.1.2)
  · exact absurd hreach (not_lt.mpr (hnone m hmatch hlt))

end Cover

/-- After a firing at `b`, each scheduled minute `m` less than four years of 365 days later is
followed by a firing at the first tick that reaches it. -/
def CoversMinutes (name : Bytes) (sched : CronSchedule) (as : List ScheduleAct) : Prop :=
  ∀ pre b mid now post s s' m, as = pre ++ .tick b :: (mid ++ .tick now :: post) →
    exec scheduleStep .new pre = some s → s.fires b name = true →
    exec scheduleStep .new (pre ++ .tick b :: mid) = some s' →
    sched.Matches m → b < m → m < b + CronSchedule.fourYears →
    (∀ t, .tick t ∈ mid → t < m) → m ≤ now → s'.fires now name = true

/-- The firings after the first are justified by scheduled minutes, all of them different. -/
def UsesMinutesOnce (name : Bytes) (sched : CronSchedule) (as : List ScheduleAct) : Prop :=
  ∀ f fs, firings name as = f :: fs →
    ∃ ms : List Time, ms.Pairwise (· < ·) ∧ sched.Justifies f fs ms

/-- **No scheduled minute is missed or used twice**, after the first firing of an enabled entry
that is registered once. -/
theorem minutes_covered (as : List ScheduleAct) (s : Scheduler) (name : Bytes)
    (entry : CronEntry) (sched : CronSchedule) (h : exec scheduleStep .new as = some s)
    (hentry : s.entries name = some (entry, sched)) (henabled : entry.enabled = true)
    (honce : as.countP (·.registers name) = 1) :
    CoversMinutes name sched as ∧ UsesMinutesOnce name sched as := by
  constructor
  · rintro pre b mid now post u v m rfl hpre hfires hmid hmatch hlt hreach hticks hle
    -- the registration is in `pre`, so the entry stays as it is
    obtain ⟨entry', sched', hentry'⟩ := entry_of_fires hfires
    have hreg := registered_of_entries hpre (by rw [hentry']; exact Option.some_ne_none _)
    rw [List.countP_append, List.countP_cons, List.countP_append] at honce
    have hu : u.entries name = some (entry, sched) := by
      rw [← hentry]
      refine (entries_of_exec (exec_drop h hpre) ?_).symm
      rw [List.countP_cons, List.countP_append]
      omega
    have hrest := exec_drop hmid hpre
    have hv : v.entries name = some (entry, sched) := by
      rw [← hu]
      refine entries_of_exec hrest ?_
      rw [List.countP_cons]
      omega
    obtain ⟨w, hw, hrest⟩ := exec_cons_iff.mp hrest
    obtain ⟨hclock, rfl⟩ := scheduleStep_some hw
    have hlast : (u.after (.tick b)).lastRun name = b := by
      rw [lastRun_after, firing, if_pos hfires]
      rfl
    obtain ⟨hge, hbefore⟩ := lastRun_mem name hrest
      (le_of_eq (clock_after u (.tick b)).symm) (by rw [hlast]; exact ⟨le_refl _, hlt⟩) hticks
    refine fires_of_matches hmid hv henabled hmatch hbefore (lt_of_lt_of_le hreach ?_) hle
    exact Int.add_le_add_right hge _
  · intro f fs hfs
    exact justified_of_exec h (le_of_eq honce) entry sched f fs hentry hfs

/-- An entry for every five minutes. -/
def everyFive : CronEntry where
  name := ascii ['f']
  cron := ascii ['*', '/', '5', ' ', '*', ' ', '*', ' ', '*', ' ', '*']
  enabled := true

/-- It is registered on March 1, 2026, first fired ten seconds later, and then there are ticks
after four, six and fifteen minutes. -/
def everyFiveRun : List ScheduleAct :=
  [.register 1772323200000000000 everyFive, .tick 1772323210000000000,
    .tick 1772323440000000000, .tick 1772323560000000000, .tick 1772324100000000000]

theorem minutes_covered_everyFive :
    ∃ s sched, exec scheduleStep .new everyFiveRun = some s ∧
      s.entries everyFive.name = some (everyFive, sched) ∧
      firings everyFive.name everyFiveRun =
        [1772323210000000000, 1772323560000000000, 1772324100000000000] ∧
      CoversMinutes everyFive.name sched everyFiveRun ∧
      UsesMinutesOnce everyFive.name sched everyFiveRun := by
  obtain ⟨sched, hsched⟩ : ∃ sched, register everyFive = .ok sched := by
    cases h : register everyFive with
    | ok sched => exact ⟨sched, rfl⟩
    | error e =>
        have hok : (register everyFive).isOk = true := by decide +kernel
        rw [h] at hok
        cases hok
  obtain ⟨s, hs⟩ := Option.isSome_iff_exists.mp
    (show (exec scheduleStep .new everyFiveRun).isSome = true by decide +kernel)
  have hentry : s.entries everyFive.name = some (everyFive, sched) := by
    obtain ⟨u, hu, hrest⟩ := exec_cons_iff.mp hs
    obtain ⟨-, rfl⟩ := scheduleStep_some hu
    rw [entries_of_exec hrest (by decide)]
    simp [Scheduler.after, hsched]
  exact ⟨s, sched, hs, hentry, by decide +kernel,
    minutes_covered everyFiveRun s everyFive.name everyFive sched hs hentry rfl (by decide)⟩

end Conduit
