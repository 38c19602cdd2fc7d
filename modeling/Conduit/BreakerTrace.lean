import Conduit.Breaker

/-!
# The Breaker and Its Trace

What a breaker does, told from the calls it has received alone.

A run of the bare breaker is a list of timed calls. Its history pairs every call with the
state the call found, and the failure streak of a history is the number of failures since the
breaker last became closed or last heard of a success. The breaker trips when the streak
reaches the threshold, and stays open for its timeout whatever is reported meanwhile.

Reports are anonymous. A call that was admitted long before the breaker opened may report its
success while the breaker is half-open, and that success counts towards closing it like one of
a probe.

## Main results

* `failures_eq_streak`: the failures of a closed breaker are its failure streak.
* `trips_and_blocks`: the breaker opens exactly at the failures that complete a streak or fail
  a probe, and then refuses every call until its timeout.
* `closedByProbes_iff`: a breaker is closed by enough successful probes exactly when no late
  success counts in a half-open period that ends closed.
-/

namespace Conduit

open Transition

/-! ### Timed calls -/

/-- The methods of a breaker that change it. -/
inductive BreakerCall
  | allow
  | success
  | failure
  deriving DecidableEq

/-- A call and the time the breaker reads during it. -/
structure TimedCall where
  time : Time
  call : BreakerCall

/-- The breaker after a call. -/
def Breaker.after (cfg : BreakerSettings) (b : Breaker) (c : TimedCall) : Breaker :=
  match c.call with
  | .allow => (b.allow cfg c.time).1
  | .success => b.recordSuccess cfg
  | .failure => b.recordFailure cfg c.time

/-- The calls of a run are all possible. -/
def breakerStep (cfg : BreakerSettings) (b : Breaker) (c : TimedCall) : Option Breaker :=
  some (b.after cfg c)

/-- The calls a new breaker has received, each with the state it found. -/
def history (cfg : BreakerSettings) (calls : List TimedCall) :
    List (CircuitState × BreakerCall) :=
  logSteps (breakerStep cfg) (fun b c => [(b.state, c.call)]) .new calls

/-- The number of failures recorded since the breaker last became closed, with no success in
between. -/
def failureStreak (log : List (CircuitState × BreakerCall)) : ℕ :=
  (log.reverse.takeWhile fun e => e.1 = .closed ∧ e.2 ≠ .success).countP fun e => e.2 = .failure

/-- The streak after one more call. -/
theorem failureStreak_concat (log : List (CircuitState × BreakerCall)) (state : CircuitState)
    (call : BreakerCall) :
    failureStreak (log ++ [(state, call)]) =
      if state = .closed ∧ call ≠ .success then
        failureStreak log + if call = .failure then 1 else 0
      else 0 := by
  unfold failureStreak
  rw [List.reverse_append, List.reverse_singleton, List.singleton_append, List.takeWhile_cons]
  by_cases h : state = .closed ∧ call ≠ .success
  · simp [h, List.countP_cons]
  · simp [h]

/-! ### Tripping -/

/-- A closed breaker counts the failures of its streak, and they are below the threshold. -/
def Breaker.CountsStreak (cfg : BreakerSettings) (calls : List TimedCall) (b : Breaker) : Prop :=
  b.state = .closed →
    b.failures = failureStreak (history cfg calls) ∧ b.failures < cfg.failureThreshold

section Trace

variable {cfg : BreakerSettings} {calls : List TimedCall} {b : Breaker} {c : TimedCall}

/-- Where a call leads. -/
inductive CallStep (cfg : BreakerSettings) (b : Breaker) (c : TimedCall) : Breaker → Prop
  | unchanged (hcall : c.call = .allow ∨ b.state = .opened) : CallStep cfg b c b
  | probing (hcall : c.call = .allow) (hstate : b.state = .opened)
      (hdue : b.openedAt + cfg.openTimeout ≤ c.time) :
      CallStep cfg b c { b with state := .halfOpen, failures := 0, successes := 0 }
  | cleared (hcall : c.call = .success) (hstate : b.state = .closed) :
      CallStep cfg b c { b with failures := 0 }
  | counted (hcall : c.call = .success) (hstate : b.state = .halfOpen)
      (hfew : b.successes + 1 < cfg.successThreshold) :
      CallStep cfg b c { b with successes := b.successes + 1 }
  | reclosed (hcall : c.call = .success) (hstate : b.state = .halfOpen)
      (henough : cfg.successThreshold ≤ b.successes + 1) :
      CallStep cfg b c { b with state := .closed, failures := 0, successes := 0 }
  | failed (hcall : c.call = .failure) (hstate : b.state = .closed)
      (hfew : b.failures + 1 < cfg.failureThreshold) :
      CallStep cfg b c { b with failures := b.failures + 1 }
  | tripped (hcall : c.call = .failure) (hstate : b.state = .closed)
      (hmany : cfg.failureThreshold ≤ b.failures + 1) :
      CallStep cfg b c { b with state := .opened, failures := b.failures + 1, openedAt := c.time }
  | reopened (hcall : c.call = .failure) (hstate : b.state = .halfOpen) :
      CallStep cfg b c
        { b with state := .opened, openedAt := c.time, failures := 0, successes := 0 }

/-- Every call leads where the list says. -/
theorem after_sound (cfg : BreakerSettings) (b : Breaker) (c : TimedCall) :
    CallStep cfg b c (b.after cfg c) := by
  unfold Breaker.after
  split
  · rename_i hcall
    unfold Breaker.allow
    split
    · exact .unchanged (.inl hcall)
    · rename_i hstate
      split
      · rename_i hdue
        exact .probing hcall hstate (Int.add_le_of_le_sub_left hdue)
      · exact .unchanged (.inl hcall)
    · exact .unchanged (.inl hcall)
  · rename_i hcall
    unfold Breaker.recordSuccess
    split
    · rename_i hstate
      split
      · rename_i henough
        exact .reclosed hcall hstate henough
      · rename_i hfew
        exact .counted hcall hstate (by omega)
    · rename_i hstate
      exact .cleared hcall hstate
    · rename_i hstate
      exact .unchanged (.inr hstate)
  · rename_i hcall
    unfold Breaker.recordFailure
    split
    · rename_i hstate
      split
      · rename_i hmany
        exact .tripped hcall hstate hmany
      · rename_i hfew
        exact .failed hcall hstate (by omega)
    · rename_i hstate
      exact .reopened hcall hstate
    · rename_i hstate
      exact .unchanged (.inr hstate)

/-- The history after one more call. -/
theorem history_concat (h : exec (breakerStep cfg) .new calls = some b) :
    history cfg (calls ++ [c]) = history cfg calls ++ [(b.state, c.call)] :=
  logSteps_concat h rfl

/-- **The failures of a closed breaker are its failure streak.** -/
theorem failures_eq_streak (h : exec (breakerStep cfg) .new calls = some b) :
    b.CountsStreak cfg calls := by
  refine exec_history (H := fun calls b => b.CountsStreak cfg calls) ?_ ?_ h
  · intro _
    exact ⟨rfl, cfg.failureThreshold_pos⟩
  · intro calls b c b' hb hold hc hstate'
    have hlog := history_concat (c := c) hb
    obtain rfl := Option.some.inj hc
    rw [hlog, failureStreak_concat]
    have hstep := after_sound cfg b c
    revert hstep hstate'
    generalize b.after cfg c = b'
    intro hstate' hstep
    cases hstep with
    | unchanged hcall =>
        have hallow : c.call = .allow := hcall.resolve_right (by rw [hstate']; decide)
        obtain ⟨hcount, hlt⟩ := hold hstate'
        simpa [hstate', hallow] using ⟨hcount, hlt⟩
    | cleared hcall hstate =>
        simpa [hcall] using cfg.failureThreshold_pos
    | reclosed hcall hstate =>
        simpa [hcall] using cfg.failureThreshold_pos
    | failed hcall hstate hfew =>
        obtain ⟨hcount, -⟩ := hold hstate
        simpa [hcall, hstate] using ⟨hcount, hfew⟩
    | _ => simp_all

/-- A closed breaker opens exactly at a failure that completes its streak. -/
theorem opened_iff_streak (h : exec (breakerStep cfg) .new calls = some b)
    (hstate : b.state = .closed) :
    (b.after cfg c).state = .opened ↔
      c.call = .failure ∧
        (failureStreak (history cfg calls) + 1 : ℤ) = cfg.failureThreshold := by
  obtain ⟨hcount, hlt⟩ := failures_eq_streak h hstate
  have hstep := after_sound cfg b c
  generalize b.after cfg c = b' at hstep
  cases hstep with
  | unchanged hcall =>
      have hallow : c.call = .allow := hcall.resolve_right (by rw [hstate]; decide)
      simp [hstate, hallow]
  | cleared hcall => simp [hstate, hcall]
  | failed hcall _ hfew =>
      simp only [hstate, hcall, reduceCtorEq, true_and, false_iff]
      omega
  | tripped hcall _ hmany =>
      simp only [hcall, true_and, true_iff]
      omega
  -- the other steps leave another state
  | _ => simp_all

/-- A half-open breaker opens exactly at a failure. -/
theorem opened_iff_failure (hstate : b.state = .halfOpen) :
    (b.after cfg c).state = .opened ↔ c.call = .failure := by
  have hstep := after_sound cfg b c
  generalize b.after cfg c = b' at hstep
  cases hstep with
  | unchanged hcall =>
      have hallow : c.call = .allow := hcall.resolve_right (by rw [hstate]; decide)
      simp [hstate, hallow]
  | counted hcall => simp [hstate, hcall]
  | reclosed hcall => simp [hcall]
  | reopened hcall => simp [hcall]
  | _ => simp_all

/-! ### Blocking -/

/-- A breaker that a call opens notes the time of the call. -/
theorem openedAt_of_opened (hbefore : b.state ≠ .opened)
    (hafter : (b.after cfg c).state = .opened) : (b.after cfg c).openedAt = c.time := by
  have hstep := after_sound cfg b c
  generalize b.after cfg c = b' at hstep hafter
  cases hstep with
  | tripped => rfl
  | reopened => rfl
  | probing => cases hafter
  | reclosed => cases hafter
  | _ => exact absurd hafter hbefore

/-- Until its timeout an open breaker is changed by no call. -/
theorem after_of_opened (hstate : b.state = .opened)
    (hearly : c.time < b.openedAt + cfg.openTimeout) : b.after cfg c = b := by
  have hstep := after_sound cfg b c
  generalize b.after cfg c = b' at hstep
  cases hstep with
  | unchanged => rfl
  | probing _ _ hdue => exact absurd hearly (not_lt.mpr hdue)
  | _ => simp_all

/-- Nor is it by any number of calls. -/
theorem exec_of_opened (hstate : b.state = .opened)
    (hearly : ∀ d ∈ calls, d.time < b.openedAt + cfg.openTimeout) :
    exec (breakerStep cfg) b calls = some b := by
  induction calls with
  | nil => rfl
  | cons d ds ih =>
      refine exec_cons_iff.mpr ⟨b, ?_, ih fun x hx => hearly x (List.mem_cons_of_mem _ hx)⟩
      rw [breakerStep, after_of_opened hstate (hearly d List.mem_cons_self)]

/-- Until its timeout an open breaker refuses. -/
theorem refused_of_opened (hstate : b.state = .opened) {now : Time}
    (hearly : now < b.openedAt + cfg.openTimeout) : (b.allow cfg now).2 = false := by
  have hnot : ¬ now - b.openedAt ≥ cfg.openTimeout := not_le.mpr (Int.sub_left_lt_of_lt_add hearly)
  simp only [Breaker.allow, hstate, if_neg hnot]

end Trace

/-- The breaker goes from closed to open exactly at the failures that complete a streak. -/
def TripsByStreak (cfg : BreakerSettings) (calls : List TimedCall) : Prop :=
  ∀ pre c post b, calls = pre ++ c :: post → exec (breakerStep cfg) .new pre = some b →
    b.state = .closed →
      ((b.after cfg c).state = .opened ↔
        c.call = .failure ∧
          (failureStreak (history cfg pre) + 1 : ℤ) = cfg.failureThreshold)

/-- The breaker goes from half-open to open exactly at the failures. -/
def ReopensByFailure (cfg : BreakerSettings) (calls : List TimedCall) : Prop :=
  ∀ pre c post b, calls = pre ++ c :: post → exec (breakerStep cfg) .new pre = some b →
    b.state = .halfOpen → ((b.after cfg c).state = .opened ↔ c.call = .failure)

/-- Once a call has opened the breaker, every `Allow` within the timeout is refused. -/
def BlocksUntilTimeout (cfg : BreakerSettings) (calls : List TimedCall) : Prop :=
  ∀ pre c mid d post b b', calls = pre ++ c :: mid ++ d :: post →
    exec (breakerStep cfg) .new pre = some b → b.state ≠ .opened →
    (b.after cfg c).state = .opened →
    exec (breakerStep cfg) .new (pre ++ c :: mid) = some b' →
    d.call = .allow → d.time < c.time + cfg.openTimeout → (b'.allow cfg d.time).2 = false

/-- **Tripping and blocking** follow the trace. -/
theorem trips_and_blocks (raw : BreakerConfig) (calls : List TimedCall)
    (hsorted : (calls.map TimedCall.time).Pairwise (· ≤ ·)) :
    TripsByStreak raw.settings calls ∧ ReopensByFailure raw.settings calls ∧
      BlocksUntilTimeout raw.settings calls := by
  refine ⟨?_, ?_, ?_⟩
  · rintro pre c post b rfl hpre hstate
    exact opened_iff_streak hpre hstate
  · rintro pre c post b rfl hpre hstate
    exact opened_iff_failure hstate
  · rintro pre c mid d post b b' rfl hpre hbefore hafter hmid hcall hearly
    have hopened := openedAt_of_opened hbefore hafter
    have hbetween : ∀ x ∈ mid, x.time ≤ d.time := by
      intro x hx
      rw [List.map_append, List.pairwise_append] at hsorted
      exact hsorted.2.2 x.time (List.mem_map_of_mem (by simp [hx])) d.time (by simp)
    have hstay : exec (breakerStep raw.settings) .new (pre ++ c :: mid) =
        some (b.after raw.settings c) := by
      refine exec_append_iff.mpr ⟨b, hpre, exec_cons_iff.mpr ⟨_, rfl, ?_⟩⟩
      refine exec_of_opened hafter fun x hx => ?_
      rw [hopened]
      exact lt_of_le_of_lt (hbetween x hx) hearly
    rw [hmid] at hstay
    obtain rfl := Option.some.inj hstay
    exact refused_of_opened hafter (by rwa [hopened])

/-- Five failures, and while the breaker is open a success, a failure and a call. -/
def lateOutcomes : List TimedCall :=
  [⟨0, .failure⟩, ⟨1, .failure⟩, ⟨2, .failure⟩, ⟨3, .failure⟩, ⟨4, .failure⟩, ⟨5, .success⟩,
    ⟨6, .failure⟩, ⟨7, .allow⟩]

theorem trips_and_blocks_lateOutcomes :
    (lateOutcomes.map TimedCall.time).Pairwise (· ≤ ·) ∧
      TripsByStreak serverBreaker.settings lateOutcomes ∧
      ReopensByFailure serverBreaker.settings lateOutcomes ∧
      BlocksUntilTimeout serverBreaker.settings lateOutcomes :=
  ⟨by decide, trips_and_blocks serverBreaker lateOutcomes (by decide)⟩

/-! ### Closing -/

/-- The half-open period that had begun last when the pending call of a worker was admitted. -/
def Circuit.callPeriod (s : Circuit) (worker : ℕ) : Option ℕ := s.pending.lookup worker

/-- A report comes from a worker whose call was admitted and has not reported. -/
def Circuit.reportsOwn (s : Circuit) : CircuitAct → Bool
  | .success worker | .failure worker => (s.callPeriod worker).isSome
  | _ => true

/-- The workers, each of which asks, runs, and then reports once. -/
def workersStep (cfg : BreakerSettings) (s : Circuit) (a : CircuitAct) : Option Circuit :=
  if s.reportsOwn a then circuitStep cfg s a else none

/-- The period of a call that reports a success. -/
def succeeded (s : Circuit) : CircuitAct → List ℕ
  | .success worker => (s.callPeriod worker).toList
  | _ => []

/-- The current period, if a success of a call from before it is reported to a half-open
breaker. -/
def lateSuccess (s : Circuit) : CircuitAct → List ℕ
  | .success worker =>
    if s.breaker.state = .halfOpen ∧ s.callPeriod worker ≠ some s.period then [s.period] else []
  | _ => []

/-- The periods of the calls that have reported a success, in order. -/
def successes (cfg : BreakerSettings) (as : List CircuitAct) : List ℕ :=
  logSteps (workersStep cfg) succeeded Circuit.init as

/-- The half-open periods in which a call from before has reported a success. -/
def lateSuccesses (cfg : BreakerSettings) (as : List CircuitAct) : List ℕ :=
  logSteps (workersStep cfg) lateSuccess Circuit.init as

/-- A half-open breaker counts the successes of its probes and the late ones. -/
structure Circuit.Counted (cfg : BreakerSettings) (as : List CircuitAct) (s : Circuit) : Prop where
  periodsOk : s.PeriodsOk
  succeeded_le : ∀ p ∈ successes cfg as, p ≤ s.period
  late_le : ∀ p ∈ lateSuccesses cfg as, p ≤ s.period
  short : s.Short cfg
  counted : s.breaker.state = .halfOpen →
    s.breaker.successes =
      (successes cfg as).count s.period + (lateSuccesses cfg as).count s.period

section Closing

variable {cfg : BreakerSettings} {as : List CircuitAct} {s s' : Circuit} {a : CircuitAct}

theorem workersStep_some (h : workersStep cfg s a = some s') :
    s.reportsOwn a = true ∧ circuitStep cfg s a = some s' := by
  unfold workersStep at h
  split at h
  · rename_i hown
    exact ⟨hown, h⟩
  · cases h

/-- The period of a pending call has begun. -/
theorem Circuit.PeriodsOk.callPeriod_le (h : s.PeriodsOk) {worker p : ℕ}
    (hcall : s.callPeriod worker = some p) : p ≤ s.period := by
  obtain ⟨l₁, l₂, hpending, -⟩ := List.lookup_eq_some_iff.mp hcall
  exact h (worker, p) (by rw [hpending]; simp)

/-- The logs after one more step. -/
theorem successes_concat (h : exec (workersStep cfg) Circuit.init as = some s)
    (ha : workersStep cfg s a = some s') :
    successes cfg (as ++ [a]) = successes cfg as ++ succeeded s a ∧
      lateSuccesses cfg (as ++ [a]) = lateSuccesses cfg as ++ lateSuccess s a :=
  ⟨logSteps_concat h ha, logSteps_concat h ha⟩

/-- A success of the call of a worker adds one entry for its period, and one for the current
period if it is late. -/
theorem count_success {worker p : ℕ} (hcall : s.callPeriod worker = some p)
    (hstate : s.breaker.state = .halfOpen) :
    (succeeded s (.success worker)).count s.period +
      (lateSuccess s (.success worker)).count s.period = 1 := by
  simp only [succeeded, lateSuccess, hcall, hstate, Option.toList_some, true_and, ne_eq,
    Option.some.injEq]
  by_cases hp : p = s.period
  · simp [hp]
  · simp [hp]

/-- Every step keeps the count. -/
theorem step_counted (hs : exec (workersStep cfg) Circuit.init as = some s)
    (hold : s.Counted cfg as) (ha : workersStep cfg s a = some s') :
    s'.Counted cfg (as ++ [a]) := by
  obtain ⟨hsuccesses, hlate⟩ := successes_concat hs ha
  obtain ⟨hown, hstep⟩ := workersStep_some ha
  obtain ⟨hperiods, hsle, hlle, hshort, hcount⟩ := hold
  have hperiods' := step_periodsOk hperiods hstep
  have hshort' := step_short hshort hstep
  -- a step that reports no success leaves both logs as they are
  have hquiet : succeeded s a = [] → lateSuccess s a = [] → s'.period = s.period →
      (s'.breaker.state = .halfOpen →
        s.breaker.state = .halfOpen ∧ s'.breaker.successes = s.breaker.successes) →
      s'.Counted cfg (as ++ [a]) := by
    intro hnone hnone' hperiod hbreaker
    rw [hnone, List.append_nil] at hsuccesses
    rw [hnone', List.append_nil] at hlate
    refine ⟨hperiods', ?_, ?_, hshort', ?_⟩
    · rw [hsuccesses, hperiod]
      exact hsle
    · rw [hlate, hperiod]
      exact hlle
    · intro hstate'
      obtain ⟨hstate, hsame⟩ := hbreaker hstate'
      rw [hsame, hsuccesses, hlate, hperiod]
      exact hcount hstate
  cases circuitStep_sound hstep with
  | refused => exact hquiet rfl rfl rfl fun hstate => ⟨hstate, rfl⟩
  | admitted => exact hquiet rfl rfl rfl fun hstate => ⟨hstate, rfl⟩
  | tick => exact hquiet rfl rfl rfl fun hstate => ⟨hstate, rfl⟩
  | failure =>
      exact hquiet rfl rfl rfl fun hstate => absurd hstate (Breaker.state_recordFailure _ _)
  | probed =>
      rw [show succeeded s (.allow _) = [] from rfl, List.append_nil] at hsuccesses
      rw [show lateSuccess s (.allow _) = [] from rfl, List.append_nil] at hlate
      refine ⟨hperiods', ?_, ?_, hshort', ?_⟩
      · rw [hsuccesses]
        exact fun p hp => Nat.le_succ_of_le (hsle p hp)
      · rw [hlate]
        exact fun p hp => Nat.le_succ_of_le (hlle p hp)
      · intro _
        -- no entry is of the period that begins
        have hnew : s.period + 1 ∉ successes cfg as := fun hp => Nat.not_succ_le_self _ (hsle _ hp)
        have hnew' : s.period + 1 ∉ lateSuccesses cfg as :=
          fun hp => Nat.not_succ_le_self _ (hlle _ hp)
        rw [hsuccesses, hlate, List.count_eq_zero_of_not_mem hnew,
          List.count_eq_zero_of_not_mem hnew']
        rfl
  | @success worker =>
      obtain ⟨p, hcall⟩ := Option.isSome_iff_exists.mp hown
      refine ⟨hperiods', ?_, ?_, hshort', ?_⟩
      · intro q hq
        rw [hsuccesses, List.mem_append] at hq
        rcases hq with hq | hq
        · exact hsle q hq
        · simp only [succeeded, hcall, Option.toList_some, List.mem_singleton] at hq
          rw [hq]
          exact hperiods.callPeriod_le hcall
      · intro q hq
        rw [hlate, List.mem_append] at hq
        rcases hq with hq | hq
        · exact hlle q hq
        · simp only [lateSuccess] at hq
          split at hq
          · exact le_of_eq (List.mem_singleton.mp hq)
          · cases hq
      · intro hstate'
        have hbefore := (Breaker.halfOpen_recordSuccess hstate').1
        have hone := count_success hcall hbefore
        have hnext : (s.breaker.recordSuccess cfg).successes = s.breaker.successes + 1 := by
          revert hstate'
          simp only [Breaker.recordSuccess, hbefore]
          split
          · intro hclosed
            cases hclosed
          · intro _
            rfl
        have hcount' := hcount hbefore
        rw [hnext, hsuccesses, hlate, List.count_append, List.count_append]
        push_cast
        omega

/-- In every run a half-open breaker counts the successes of its probes and the late ones. -/
theorem counted_of_exec (h : exec (workersStep cfg) Circuit.init as = some s) :
    s.Counted cfg as := by
  refine exec_history (H := fun as s => s.Counted cfg as) ?_ (fun _ _ _ _ => step_counted) h
  refine ⟨by simp [Circuit.PeriodsOk, Circuit.init], ?_, ?_, ?_, ?_⟩
  · intro p hp
    cases hp
  · intro p hp
    cases hp
  · intro hstate
    cases hstate
  · intro hstate
    cases hstate

/-- The success that closes the breaker is the one that completes its threshold. -/
theorem count_of_closes (hs : exec (workersStep cfg) Circuit.init as = some s)
    (ha : workersStep cfg s a = some s') (hstate : s.breaker.state = .halfOpen)
    (hstate' : s'.breaker.state = .closed) :
    ((successes cfg (as ++ [a])).count s.period : ℤ) +
      (lateSuccesses cfg (as ++ [a])).count s.period = cfg.successThreshold := by
  obtain ⟨hsuccesses, hlate⟩ := successes_concat hs ha
  obtain ⟨hown, hstep⟩ := workersStep_some ha
  obtain ⟨-, -, -, hshort, hcount⟩ := counted_of_exec hs
  have hlt := hshort hstate
  have hbefore := hcount hstate
  cases circuitStep_sound hstep with
  | @success worker =>
      obtain ⟨p, hcall⟩ := Option.isSome_iff_exists.mp hown
      have hone := count_success hcall hstate
      have hmany : cfg.successThreshold ≤ s.breaker.successes + 1 := by
        revert hstate'
        simp only [Breaker.recordSuccess, hstate]
        split
        · intro _
          assumption
        · intro hopen
          cases hopen
      rw [hsuccesses, hlate, List.count_append, List.count_append]
      push_cast
      omega
  | probed => cases hstate'
  | failure => simp [Breaker.recordFailure, hstate] at hstate'
  | _ => rw [hstate] at hstate'; cases hstate'

end Closing

/-- Whenever the breaker goes from half-open to closed, enough of the calls admitted since the
half-open period began have reported a success. -/
def ClosedByProbes (cfg : BreakerSettings) (as : List CircuitAct) : Prop :=
  ∀ pre a post s s', as = pre ++ a :: post →
    exec (workersStep cfg) Circuit.init pre = some s → workersStep cfg s a = some s' →
    s.breaker.state = .halfOpen → s'.breaker.state = .closed →
      cfg.successThreshold ≤ (successes cfg (pre ++ [a])).count s.period

/-- No success of a call from before counts in a half-open period that ends closed. -/
def NoLateSuccess (cfg : BreakerSettings) (as : List CircuitAct) : Prop :=
  ∀ pre a post s s', as = pre ++ a :: post →
    exec (workersStep cfg) Circuit.init pre = some s → workersStep cfg s a = some s' →
    s.breaker.state = .halfOpen → s'.breaker.state = .closed →
      s.period ∉ lateSuccesses cfg (pre ++ [a])

/-- **Only probes close the breaker** exactly when no late success counts in a half-open period
that ends closed. -/
theorem closedByProbes_iff (raw : BreakerConfig) (as : List CircuitAct) :
    ClosedByProbes raw.settings as ↔ NoLateSuccess raw.settings as := by
  constructor
  · intro hprobes pre a post s s' has hpre ha hstate hstate' hmem
    have henough := hprobes pre a post s s' has hpre ha hstate hstate'
    have hcount := count_of_closes hpre ha hstate hstate'
    have hpos := List.count_pos_iff.mpr hmem
    omega
  · intro hnone pre a post s s' has hpre ha hstate hstate'
    have hcount := count_of_closes hpre ha hstate hstate'
    rw [List.count_eq_zero_of_not_mem (hnone pre a post s s' has hpre ha hstate hstate')] at hcount
    omega

/-- Worker nine is admitted, five others fail, and after the timeout one probe succeeds; then
worker nine reports its success. -/
def lateReport : List CircuitAct :=
  .allow 9 :: (List.replicate 5 failingCall).flatten ++
    [.tick 30000000000, .allow 1, .success 1, .success 9]

/-- The breaker of the server, which needs two successes, is closed by one probe. -/
theorem not_closedByProbes_lateReport :
    ¬ ClosedByProbes serverBreaker.settings lateReport := by
  intro hprobes
  obtain ⟨s, hs, h⟩ := (Option.any_eq_true _ _).mp
    (show (exec (workersStep serverBreaker.settings) Circuit.init lateReport.dropLast).any (fun s =>
        decide (s.breaker.state = .halfOpen ∧ s.period = 1) &&
          (workersStep serverBreaker.settings s (.success 9)).any fun s' =>
            decide (s'.breaker.state = .closed)) = true by decide +kernel)
  rw [Bool.and_eq_true] at h
  obtain ⟨hstate, hperiod⟩ := of_decide_eq_true h.1
  obtain ⟨s', hs', hclosed⟩ := (Option.any_eq_true _ _).mp h.2
  have henough := hprobes lateReport.dropLast (.success 9) [] s s' rfl hs hs' hstate
    (of_decide_eq_true hclosed)
  rw [hperiod] at henough
  revert henough
  decide +kernel

end Conduit
