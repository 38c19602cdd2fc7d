import Mathlib.Algebra.Order.Ring.Int
import Mathlib.Data.List.Count
import Conduit.Models
import Conduit.Transition

/-!
# The Circuit Breaker

`circuitbreaker.Breaker`, with the calls of its users: a worker asks `Allow`, and if it is
admitted it reports the outcome later with `RecordSuccess` or `RecordFailure`. Any number of
workers do so, in any order; a `Circuit` is the breaker with a clock and the calls that have
been admitted and not yet reported.

In the half-open state `Allow` compares the number of *successes* with `HalfOpenRequests`.
That has two consequences. When `HalfOpenRequests` successes do not suffice to close the
breaker, it admits nobody any more, and as only an outcome could move it, it stays so for
ever. And since calls that have not reported do not count, any number of probes can be out at
once.

## Main results

* `successes_lt_of_exec`: a half-open breaker is short of the successes that close it.
* `neverLocksUp_iff`: the breaker always admits a later call exactly when `SuccessThreshold`
  is at most `HalfOpenRequests`.
* `probes_le_iff`: a run keeps the probes within `HalfOpenRequests` exactly when no call asks
  a half-open breaker while that many probes are out.
-/

namespace Conduit

open Transition

/-! ### The breaker -/

/-- The states of a breaker; `opened` is `StateOpen`. -/
inductive CircuitState
  | closed
  | opened
  | halfOpen
  deriving DecidableEq

/-- `circuitbreaker.Config`. -/
structure BreakerConfig where
  failureThreshold : ℤ
  successThreshold : ℤ
  openTimeout : Duration
  halfOpenRequests : ℤ

/-- The configuration a breaker runs with: every setting is positive. -/
structure BreakerSettings extends BreakerConfig where
  failureThreshold_pos : 0 < failureThreshold
  successThreshold_pos : 0 < successThreshold
  openTimeout_pos : 0 < openTimeout
  halfOpenRequests_pos : 0 < halfOpenRequests

/-- A setting that is not positive is replaced by its default. -/
def orDefault (value default : ℤ) : ℤ := if value ≤ 0 then default else value

theorem orDefault_pos {value default : ℤ} (h : 0 < default) : 0 < orDefault value default := by
  unfold orDefault
  split
  · exact h
  · rename_i hvalue
    exact not_le.mp hvalue

/-- The configuration after the defaulting of `New`. -/
def BreakerConfig.settings (cfg : BreakerConfig) : BreakerSettings where
  failureThreshold := orDefault cfg.failureThreshold 5
  successThreshold := orDefault cfg.successThreshold 2
  openTimeout := orDefault cfg.openTimeout (60 * second)
  halfOpenRequests := orDefault cfg.halfOpenRequests 1
  failureThreshold_pos := orDefault_pos (by decide)
  successThreshold_pos := orDefault_pos (by decide)
  openTimeout_pos := orDefault_pos (by decide)
  halfOpenRequests_pos := orDefault_pos (by decide)

/-- `circuitbreaker.Breaker`. Its configuration never changes and is a parameter of its
methods. -/
structure Breaker where
  state : CircuitState
  failures : ℤ
  successes : ℤ
  openedAt : Time
  deriving DecidableEq

namespace Breaker

variable (cfg : BreakerSettings)

/-- `New`. -/
def new : Breaker := ⟨.closed, 0, 0, zeroTime⟩

/-- `Breaker.Allow`. -/
def allow (now : Time) (b : Breaker) : Breaker × Bool :=
  match b.state with
  | .closed => (b, true)
  | .opened =>
    if now - b.openedAt ≥ cfg.openTimeout then
      ({ b with state := .halfOpen, failures := 0, successes := 0 }, true)
    else (b, false)
  | .halfOpen => (b, b.successes < cfg.halfOpenRequests)

/-- `Breaker.RecordSuccess`. -/
def recordSuccess (b : Breaker) : Breaker :=
  match b.state with
  | .halfOpen =>
    if b.successes + 1 ≥ cfg.successThreshold then
      { b with state := .closed, failures := 0, successes := 0 }
    else { b with successes := b.successes + 1 }
  | .closed => { b with failures := 0 }
  | .opened => b

/-- `Breaker.RecordFailure`. -/
def recordFailure (now : Time) (b : Breaker) : Breaker :=
  match b.state with
  | .closed =>
    if b.failures + 1 ≥ cfg.failureThreshold then
      { b with state := .opened, failures := b.failures + 1, openedAt := now }
    else { b with failures := b.failures + 1 }
  | .halfOpen => { b with state := .opened, openedAt := now, failures := 0, successes := 0 }
  | .opened => b

variable {cfg}

/-- The answers of `Allow`: a refusal changes nothing, an admission changes nothing or begins
a half-open period. -/
theorem allow_cases (cfg : BreakerSettings) (now : Time) (b : Breaker) :
    b.allow cfg now = (b, false) ∨
      (b.allow cfg now = (b, true) ∧ b.state ≠ .opened ∧
        (b.state = .halfOpen → b.successes < cfg.halfOpenRequests)) ∨
      b.state = .opened ∧ b.allow cfg now =
        ({ b with state := .halfOpen, failures := 0, successes := 0 }, true) := by
  unfold allow
  split
  · rename_i hstate
    exact .inr (.inl ⟨rfl, by simp [hstate], by simp [hstate]⟩)
  · rename_i hstate
    split
    · exact .inr (.inr ⟨hstate, rfl⟩)
    · exact .inl rfl
  · rename_i hstate
    by_cases hroom : b.successes < cfg.halfOpenRequests
    · exact .inr (.inl ⟨by simp [hroom], by simp [hstate], fun _ => hroom⟩)
    · exact .inl (by simp [hroom])

/-- A half-open breaker admits by the number of successes, at any time. -/
theorem allow_of_halfOpen {b : Breaker} (h : b.state = .halfOpen) (now : Time) :
    b.allow cfg now = (b, decide (b.successes < cfg.halfOpenRequests)) := by
  simp only [allow, h]

/-- Only a report of success or an admission leaves a breaker half-open. -/
theorem state_recordFailure (now : Time) (b : Breaker) :
    (b.recordFailure cfg now).state ≠ .halfOpen := by
  unfold recordFailure
  split
  · rename_i hstate
    split <;> simp [hstate]
  · simp
  · rename_i hstate
    simp [hstate]

/-- A breaker that is half-open after a success was half-open, one success short of it. -/
theorem halfOpen_recordSuccess {b : Breaker} (h : (b.recordSuccess cfg).state = .halfOpen) :
    b.state = .halfOpen ∧ (b.recordSuccess cfg).successes < cfg.successThreshold := by
  unfold recordSuccess at h ⊢
  split at h
  · rename_i hstate
    split at h
    · cases h
    · rename_i hfew
      refine ⟨hstate, ?_⟩
      rw [if_neg hfew]
      exact not_le.mp hfew
  · rename_i hstate
    rw [hstate] at h
    cases h
  · rename_i hstate
    rw [hstate] at h
    cases h

end Breaker

/-! ### The breaker and its users -/

/-- A breaker in use. `pending` lists the workers whose call was admitted and has not reported,
each with the number of the half-open period that had begun last when it was admitted. -/
structure Circuit where
  breaker : Breaker
  clock : Time
  period : ℕ
  pending : List (ℕ × ℕ)

/-- A new breaker at time zero. -/
def Circuit.init : Circuit := ⟨.new, 0, 0, []⟩

/-- A call of a worker, or the passing of time. A report without an admitted call is
possible; it belongs to no probe. -/
inductive CircuitAct
  | allow (worker : ℕ)
  | success (worker : ℕ)
  | failure (worker : ℕ)
  | tick (d : ℕ)

/-- The call of `worker` has reported. -/
def Circuit.report (s : Circuit) (worker : ℕ) : List (ℕ × ℕ) :=
  s.pending.filter fun call => call.1 ≠ worker

/-- The state after a call of `Allow` that was answered `answer`. -/
def Circuit.asked (s : Circuit) (worker : ℕ) (answer : Breaker × Bool) : Circuit :=
  let period := if s.breaker.state = .opened ∧ answer.2 then s.period + 1 else s.period
  { s with
    breaker := answer.1
    period := period
    pending := if answer.2 then (worker, period) :: s.pending else s.pending }

/-- One step of a breaker in use. A worker makes one call at a time. -/
def circuitStep (cfg : BreakerSettings) (s : Circuit) : CircuitAct → Option Circuit
  | .allow worker =>
    if worker ∈ s.pending.map Prod.fst then none
    else some (s.asked worker (s.breaker.allow cfg s.clock))
  | .success worker =>
    some { s with breaker := s.breaker.recordSuccess cfg, pending := s.report worker }
  | .failure worker =>
    some { s with breaker := s.breaker.recordFailure cfg s.clock, pending := s.report worker }
  | .tick d => some { s with clock := s.clock + d }

/-- The steps of a breaker in use, one by one. -/
inductive CircuitStep (cfg : BreakerSettings) (s : Circuit) : CircuitAct → Circuit → Prop
  | refused {worker : ℕ} : CircuitStep cfg s (.allow worker) s
  | admitted {worker : ℕ} (hstate : s.breaker.state ≠ .opened)
      (hroom : s.breaker.state = .halfOpen → s.breaker.successes < cfg.halfOpenRequests) :
      CircuitStep cfg s (.allow worker) { s with pending := (worker, s.period) :: s.pending }
  | probed {worker : ℕ} (hstate : s.breaker.state = .opened) :
      CircuitStep cfg s (.allow worker)
        { s with
          breaker := { s.breaker with state := .halfOpen, failures := 0, successes := 0 }
          period := s.period + 1
          pending := (worker, s.period + 1) :: s.pending }
  | success {worker : ℕ} :
      CircuitStep cfg s (.success worker)
        { s with breaker := s.breaker.recordSuccess cfg, pending := s.report worker }
  | failure {worker : ℕ} :
      CircuitStep cfg s (.failure worker)
        { s with breaker := s.breaker.recordFailure cfg s.clock, pending := s.report worker }
  | tick {d : ℕ} : CircuitStep cfg s (.tick d) { s with clock := s.clock + d }

/-- Every step of `circuitStep` is one of the listed steps. -/
theorem circuitStep_sound {cfg : BreakerSettings} {s s' : Circuit} {a : CircuitAct}
    (h : circuitStep cfg s a = some s') : CircuitStep cfg s a s' := by
  cases a with
  | allow worker =>
      simp only [circuitStep] at h
      split at h
      · cases h
      · obtain rfl := Option.some.inj h
        rcases s.breaker.allow_cases cfg s.clock with
          hno | ⟨hyes, hstate, hroom⟩ | ⟨hstate, hprobe⟩
        · rw [hno]
          simp only [Circuit.asked, Bool.false_eq_true, and_false, if_false]
          exact .refused
        · rw [hyes]
          simp only [Circuit.asked, hstate, false_and, if_false, if_true]
          exact .admitted hstate hroom
        · rw [hprobe]
          simp only [Circuit.asked, hstate, and_self, if_true]
          exact .probed hstate
  | success worker =>
      obtain rfl := Option.some.inj h
      exact .success
  | failure worker =>
      obtain rfl := Option.some.inj h
      exact .failure
  | tick d =>
      obtain rfl := Option.some.inj h
      exact .tick

/-! ### The breaker never locks up -/

/-- A half-open breaker is short of the successes that would close it. -/
def Circuit.Short (cfg : BreakerSettings) (s : Circuit) : Prop :=
  s.breaker.state = .halfOpen → s.breaker.successes < cfg.successThreshold

/-- Every step keeps a half-open breaker short of the successes. -/
theorem step_short {cfg : BreakerSettings} {s s' : Circuit} {a : CircuitAct}
    (hold : s.Short cfg) (h : circuitStep cfg s a = some s') : s'.Short cfg := by
  cases circuitStep_sound h with
  | refused => exact hold
  | admitted => exact hold
  | probed => exact fun _ => cfg.successThreshold_pos
  | success => exact fun hstate => (Breaker.halfOpen_recordSuccess hstate).2
  | failure => exact fun hstate => absurd hstate (Breaker.state_recordFailure _ _)
  | tick => exact hold

/-- In every run a half-open breaker is short of the successes that would close it. -/
theorem successes_lt_of_exec {cfg : BreakerSettings} {as : List CircuitAct} {s : Circuit}
    (h : exec (circuitStep cfg) Circuit.init as = some s) : s.Short cfg := by
  refine exec_invariant (I := Circuit.Short cfg) (fun _ _ _ => step_short) ?_ h
  intro hstate
  cases hstate

/-- `Allow` admits a call now or later. -/
def Circuit.AdmitsLater (cfg : BreakerSettings) (s : Circuit) : Prop :=
  ∃ now, s.clock ≤ now ∧ (s.breaker.allow cfg now).2 = true

/-- A closed breaker admits at once, an open one after its timeout, and a half-open one at once
if closing it needs no more successes than it admits calls. -/
theorem admitsLater_of_le {cfg : BreakerSettings} {s : Circuit} (hshort : s.Short cfg)
    (hle : cfg.successThreshold ≤ cfg.halfOpenRequests) : s.AdmitsLater cfg := by
  cases hstate : s.breaker.state with
  | closed => exact ⟨s.clock, le_refl _, by simp only [Breaker.allow, hstate]⟩
  | opened =>
      refine ⟨max s.clock (s.breaker.openedAt + cfg.openTimeout), le_max_left _ _, ?_⟩
      have hdue : max s.clock (s.breaker.openedAt + cfg.openTimeout) - s.breaker.openedAt ≥
          cfg.openTimeout :=
        Int.le_sub_left_of_add_le (le_max_right _ _)
      simp only [Breaker.allow, hstate, if_pos hdue]
  | halfOpen =>
      refine ⟨s.clock, le_refl _, ?_⟩
      rw [Breaker.allow_of_halfOpen hstate]
      exact decide_eq_true (lt_of_lt_of_le (hshort hstate) hle)

/-- A half-open breaker with as many successes as it admits calls admits nobody any more. -/
theorem not_admitsLater {cfg : BreakerSettings} {s : Circuit}
    (hstate : s.breaker.state = .halfOpen)
    (hfull : cfg.halfOpenRequests ≤ s.breaker.successes) : ¬ s.AdmitsLater cfg := by
  rintro ⟨now, -, hallow⟩
  rw [Breaker.allow_of_halfOpen hstate] at hallow
  exact absurd (of_decide_eq_true hallow) (not_lt.mpr hfull)

/-- The breaker never locks up: whenever all admitted calls have reported, a later call is
admitted. -/
def NeverLocksUp (cfg : BreakerSettings) : Prop :=
  ∀ as s, exec (circuitStep cfg) Circuit.init as = some s → s.pending = [] → s.AdmitsLater cfg

/-! ### A run into the lock-up -/

/-- Worker zero makes a call and reports a failure. -/
def failingCall : List CircuitAct := [.allow 0, .failure 0]

/-- Worker zero makes a call and reports a success. -/
def succeedingCall : List CircuitAct := [.allow 0, .success 0]

/-- A closed breaker after some failures in a row, at time zero. -/
def closedAfter (failures : ℤ) : Circuit := ⟨⟨.closed, failures, 0, zeroTime⟩, 0, 0, []⟩

/-- A half-open breaker after some successes, in its first period. -/
def halfOpenAfter (successes : ℤ) (openedAt clock : Time) : Circuit :=
  ⟨⟨.halfOpen, 0, successes, openedAt⟩, clock, 1, []⟩

section LockUp

variable {cfg : BreakerSettings}

/-- A failure below the threshold leaves the breaker closed. -/
theorem exec_failingCall {n : ℤ} (h : n + 1 < cfg.failureThreshold) :
    exec (circuitStep cfg) (closedAfter n) failingCall = some (closedAfter (n + 1)) := by
  have hfew : ¬ n + 1 ≥ cfg.failureThreshold := not_le.mpr h
  simp [exec, failingCall, circuitStep, closedAfter, Circuit.asked, Breaker.allow,
    Breaker.recordFailure, Circuit.report, hfew]

/-- A success short of the threshold leaves the breaker half-open. -/
theorem exec_succeedingCall {n : ℤ} {openedAt clock : Time} (hroom : n < cfg.halfOpenRequests)
    (h : n + 1 < cfg.successThreshold) :
    exec (circuitStep cfg) (halfOpenAfter n openedAt clock) succeedingCall =
      some (halfOpenAfter (n + 1) openedAt clock) := by
  have hfew : ¬ n + 1 ≥ cfg.successThreshold := not_le.mpr h
  simp [exec, succeedingCall, circuitStep, halfOpenAfter, Circuit.asked, Breaker.allow,
    Breaker.recordSuccess, Circuit.report, hroom, hfew]

/-- Failures below the threshold leave the breaker closed. -/
theorem exec_failingCalls {n : ℕ} (h : n < cfg.failureThreshold) :
    exec (circuitStep cfg) (closedAfter 0) (List.replicate n failingCall).flatten =
      some (closedAfter n) :=
  exec_rounds (S := fun i => closedAfter i) fun i hi => exec_failingCall (by omega)

/-- Successes short of the threshold leave the breaker half-open. -/
theorem exec_succeedingCalls {n : ℕ} {clock : Time} (hroom : 1 + n ≤ cfg.halfOpenRequests)
    (h : 1 + n < cfg.successThreshold) :
    exec (circuitStep cfg) (halfOpenAfter 1 0 clock)
        (List.replicate n succeedingCall).flatten =
      some (halfOpenAfter (1 + n) 0 clock) := by
  refine exec_rounds (S := fun i => halfOpenAfter (1 + i) 0 clock) fun i hi => ?_
  rw [Int.natCast_add, ← Int.add_assoc]
  exact exec_succeedingCall (by omega) (by omega)

/-- The failure that reaches the threshold opens the breaker. -/
theorem exec_lastFailingCall :
    exec (circuitStep cfg) (closedAfter (cfg.failureThreshold - 1)) failingCall =
      some ⟨⟨.opened, cfg.failureThreshold, 0, 0⟩, 0, 0, []⟩ := by
  simp [exec, failingCall, circuitStep, closedAfter, Circuit.asked, Breaker.allow,
    Breaker.recordFailure, Circuit.report]

/-- The first probe after the timeout, if one success does not close the breaker. -/
theorem exec_firstProbe {failures : ℤ} {clock : Time} (hclock : cfg.openTimeout ≤ clock)
    (h : 1 < cfg.successThreshold) :
    exec (circuitStep cfg) ⟨⟨.opened, failures, 0, 0⟩, clock, 0, []⟩ succeedingCall =
      some (halfOpenAfter 1 0 clock) := by
  simp [exec, succeedingCall, circuitStep, halfOpenAfter, Circuit.asked, Breaker.allow,
    Breaker.recordSuccess, Circuit.report, hclock, h]

/-- Failures up to the threshold, the timeout, and as many successful calls as the half-open
breaker admits. -/
def lockUpRun (cfg : BreakerSettings) : List CircuitAct :=
  (List.replicate (cfg.failureThreshold - 1).toNat failingCall).flatten ++ failingCall ++
    .tick cfg.openTimeout.toNat :: succeedingCall ++
    (List.replicate (cfg.halfOpenRequests - 1).toNat succeedingCall).flatten

/-- If its successes do not close the breaker, that run ends with the breaker full. -/
theorem exec_lockUpRun (h : cfg.halfOpenRequests < cfg.successThreshold) :
    exec (circuitStep cfg) Circuit.init (lockUpRun cfg) =
      some (halfOpenAfter cfg.halfOpenRequests 0 cfg.openTimeout) := by
  have hF := cfg.failureThreshold_pos
  have hH := cfg.halfOpenRequests_pos
  have hT : ((cfg.openTimeout.toNat : ℕ) : ℤ) = cfg.openTimeout :=
    Int.toNat_of_nonneg (le_of_lt cfg.openTimeout_pos)
  have hfails : exec (circuitStep cfg) Circuit.init
      (List.replicate (cfg.failureThreshold - 1).toNat failingCall).flatten =
      some (closedAfter (cfg.failureThreshold - 1)) := by
    have hn : (((cfg.failureThreshold - 1).toNat : ℕ) : ℤ) = cfg.failureThreshold - 1 := by
      omega
    rw [← hn]
    exact exec_failingCalls (by omega)
  have hprobes : exec (circuitStep cfg) (halfOpenAfter 1 0 cfg.openTimeout)
      (List.replicate (cfg.halfOpenRequests - 1).toNat succeedingCall).flatten =
      some (halfOpenAfter cfg.halfOpenRequests 0 cfg.openTimeout) := by
    have hn : 1 + (((cfg.halfOpenRequests - 1).toNat : ℕ) : ℤ) = cfg.halfOpenRequests := by
      omega
    refine (exec_succeedingCalls (by omega) (by omega)).trans ?_
    rw [hn]
  unfold lockUpRun
  refine exec_append_iff.mpr ⟨_, exec_append_iff.mpr ⟨_, exec_append_iff.mpr
    ⟨_, hfails, exec_lastFailingCall⟩, ?_⟩, hprobes⟩
  refine exec_cons_iff.mpr ⟨⟨⟨.opened, cfg.failureThreshold, 0, 0⟩, cfg.openTimeout, 0, []⟩,
    ?_, exec_firstProbe (le_refl _) (by omega)⟩
  simp [circuitStep, hT]

end LockUp

/-- **The breaker never locks up** exactly when closing it needs no more successes than a
half-open breaker admits calls. -/
theorem neverLocksUp_iff (raw : BreakerConfig) :
    NeverLocksUp raw.settings ↔
      raw.settings.successThreshold ≤ raw.settings.halfOpenRequests := by
  constructor
  · intro hnever
    by_contra hlt
    have hrun := exec_lockUpRun (not_le.mp hlt)
    exact not_admitsLater rfl (le_refl _) (hnever _ _ hrun rfl)
  · intro hle as s h _
    exact admitsLater_of_le (successes_lt_of_exec h) hle

/-- The configuration of the server. -/
def serverBreaker : BreakerConfig := ⟨5, 2, 30 * second, 1⟩

/-- Five failures, thirty seconds and one successful probe: with its only probe spent, the
breaker of the server refuses every call from then on. -/
theorem locksUp_serverBreaker :
    ∃ s, exec (circuitStep serverBreaker.settings) Circuit.init
        (lockUpRun serverBreaker.settings) = some s ∧ s.pending = [] ∧
      ∀ now, s.clock ≤ now → (s.breaker.allow serverBreaker.settings now).2 = false := by
  obtain ⟨s, hs, h⟩ := (Option.any_eq_true _ _).mp
    (show (exec (circuitStep serverBreaker.settings) Circuit.init
        (lockUpRun serverBreaker.settings)).any (fun s =>
          decide (s.pending = [] ∧ s.breaker.state = .halfOpen ∧ s.breaker.successes = 1)) =
        true by decide +kernel)
  obtain ⟨hpending, hstate, hsuccesses⟩ := of_decide_eq_true h
  refine ⟨s, hs, hpending, ?_⟩
  intro now _
  rw [Breaker.allow_of_halfOpen hstate, hsuccesses]
  rfl

/-! ### Probes -/

/-- The probes of the current half-open period that have not reported. -/
def Circuit.probes (s : Circuit) : ℕ := s.pending.countP fun call => call.2 = s.period

/-- While the breaker is half-open, no more probes are out than it is configured for. -/
def Circuit.ProbesLimited (cfg : BreakerSettings) (s : Circuit) : Prop :=
  s.breaker.state = .halfOpen → (s.probes : ℤ) ≤ cfg.halfOpenRequests

/-- The action asks a half-open breaker that still counts too few successes while all the
probes it is configured for are out. -/
def crowds (cfg : BreakerSettings) (s : Circuit) : CircuitAct → Bool
  | .allow _ =>
    s.breaker.state = .halfOpen ∧ s.breaker.successes < cfg.halfOpenRequests ∧
      cfg.halfOpenRequests ≤ s.probes
  | _ => false

/-- No call is of a period still to come. -/
def Circuit.PeriodsOk (s : Circuit) : Prop := ∀ call ∈ s.pending, call.2 ≤ s.period

theorem step_periodsOk {cfg : BreakerSettings} {s s' : Circuit} {a : CircuitAct}
    (hold : s.PeriodsOk) (h : circuitStep cfg s a = some s') : s'.PeriodsOk := by
  cases circuitStep_sound h with
  | refused => exact hold
  | admitted =>
      intro call hcall
      rcases List.mem_cons.mp hcall with rfl | hcall
      · exact le_refl _
      · exact hold call hcall
  | probed =>
      intro call hcall
      rcases List.mem_cons.mp hcall with rfl | hcall
      · exact le_refl _
      · exact Nat.le_succ_of_le (hold call hcall)
  | success => exact fun call hcall => hold call (List.mem_filter.mp hcall).1
  | failure => exact fun call hcall => hold call (List.mem_filter.mp hcall).1
  | tick => exact hold

/-- A new period begins without probes. -/
theorem Circuit.PeriodsOk.countP_succ {s : Circuit} (h : s.PeriodsOk) :
    s.pending.countP (fun call => call.2 = s.period + 1) = 0 := by
  rw [List.countP_eq_zero]
  intro call hcall
  have hle := h call hcall
  simp only [decide_eq_true_eq]
  omega

/-- Every step that crowds nobody in keeps the probes within the limit. -/
theorem step_probesLimited {cfg : BreakerSettings} {s s' : Circuit} {a : CircuitAct}
    (hperiods : s.PeriodsOk) (hold : s.ProbesLimited cfg) (h : circuitStep cfg s a = some s')
    (hnot : crowds cfg s a = false) : s'.ProbesLimited cfg := by
  have hreport : ∀ worker, ((s.report worker).countP fun call => call.2 = s.period) ≤ s.probes :=
    fun worker => List.filter_sublist.countP_le
  cases circuitStep_sound h with
  | refused => exact hold
  | @admitted worker _ hroom =>
      intro hstate
      have hfew : (s.probes : ℤ) < cfg.halfOpenRequests := by
        simpa [crowds, show s.breaker.state = .halfOpen from hstate, hroom hstate] using hnot
      have hmore : ({ s with pending := (worker, s.period) :: s.pending } : Circuit).probes =
          s.probes + 1 := by
        simp [Circuit.probes]
      rw [hmore]
      omega
  | @probed worker =>
      intro _
      have hone := cfg.halfOpenRequests_pos
      simp only [Circuit.probes, List.countP_cons, hperiods.countP_succ]
      simp only [decide_true, if_true]
      omega
  | @success worker =>
      intro hstate
      have hbefore := hold (Breaker.halfOpen_recordSuccess hstate).1
      exact le_trans (Int.ofNat_le.mpr (hreport worker)) hbefore
  | failure => exact fun hstate => absurd hstate (Breaker.state_recordFailure _ _)
  | tick => exact hold

/-- A call that crowds in exceeds the limit. -/
theorem not_probesLimited_of_crowds {cfg : BreakerSettings} {s s' : Circuit} {a : CircuitAct}
    (h : circuitStep cfg s a = some s') (hcrowds : crowds cfg s a = true) :
    ¬ s'.ProbesLimited cfg := by
  unfold crowds at hcrowds
  split at hcrowds
  · rename_i worker
    obtain ⟨hstate, hroom, hfull⟩ := of_decide_eq_true hcrowds
    simp only [circuitStep, Breaker.allow_of_halfOpen hstate, hroom] at h
    split at h
    · cases h
    · obtain rfl := Option.some.inj h
      intro hlimited
      have hle := hlimited hstate
      simp only [Circuit.asked, Circuit.probes, hstate, decide_true, if_true, List.countP_cons,
        reduceCtorEq, false_and, if_false] at hle
      rw [Circuit.probes] at hfull
      omega
  · cases hcrowds

/-- **Probes.** A run keeps the probes of every half-open period within `HalfOpenRequests`
exactly when no call asks a half-open breaker while that many of its probes are out. -/
theorem probes_le_iff (raw : BreakerConfig) (as : List CircuitAct) :
    AllStates (circuitStep raw.settings) (Circuit.ProbesLimited raw.settings) Circuit.init as ↔
      AllSteps (circuitStep raw.settings) (fun s a _ => crowds raw.settings s a = false)
        Circuit.init as := by
  constructor
  · rintro hall pre a post u v rfl hpre ha
    by_contra hcrowds
    have hlimited := hall (pre ++ [a]) post v (by simp) (exec_concat_iff.mpr ⟨u, hpre, ha⟩)
    exact not_probesLimited_of_crowds ha (by simpa using hcrowds) hlimited
  · rintro hall pre post u rfl hpre
    refine (AllSteps.exec_invariant
      (I := fun s => s.PeriodsOk ∧ s.ProbesLimited raw.settings) ?_ hall.of_append ?_ hpre).2
    · rintro s a s' ⟨hperiods, hold⟩ hstep hnot
      exact ⟨step_periodsOk hperiods hstep, step_probesLimited hperiods hold hstep hnot⟩
    · exact ⟨by simp [Circuit.PeriodsOk, Circuit.init], fun hstate => by cases hstate⟩

/-- Five workers fail, the timeout passes, and two workers ask one after the other. -/
def twoProbes : List CircuitAct :=
  (List.replicate 5 failingCall).flatten ++ [.tick 30000000000, .allow 1, .allow 2]

/-- The breaker of the server, configured for one probe, has two out. -/
theorem probes_twoProbes :
    ∃ s, exec (circuitStep serverBreaker.settings) Circuit.init twoProbes = some s ∧
      s.breaker.state = .halfOpen ∧ s.probes = 2 ∧
      serverBreaker.settings.halfOpenRequests = 1 := by
  obtain ⟨s, hs, h⟩ := (Option.any_eq_true _ _).mp
    (show (exec (circuitStep serverBreaker.settings) Circuit.init twoProbes).any (fun s =>
        decide (s.breaker.state = .halfOpen ∧ s.probes = 2)) = true by decide +kernel)
  obtain ⟨hstate, hprobes⟩ := of_decide_eq_true h
  exact ⟨s, hs, hstate, hprobes, rfl⟩

end Conduit
