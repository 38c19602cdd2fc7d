import Conduit.Attempt
import Conduit.Claim

/-!
# Backoff under a Common Clock

The system together with one clock that the workers and Postgres share. An action may carry
clock readings; here every reading was taken at or before the moment of the step, since the
code reads the clock first and acts on it afterwards.

A retry puts the next due time into `scheduled_at`. `ClaimNextJob` tests that column in SQL.
`Run` tests the copy in its hands instead, and the copy of a Kafka message still has the due
time of the enqueue. A message that arrives during a backoff therefore claims the row early,
and the handler starts before the backoff is over.

## Main results

* `clockStep_base`: the clocked system runs the system without a clock.
* `pastDue_of_exec`: beyond the test at the beginning of `Run`, the due time of the copy has
  come.
* `due_of_claim`: a claim takes a due row, unless its copy has another due time than the row.
* `backoffHonoured_of_allSteps`: in a run whose Kafka claims never meet a postponed row, no
  handler starts before the due time its row had when it was claimed.
-/

namespace Conduit

open KeyedTable Transition

/-- The state of the clocked system. -/
structure Clocked where
  base : Sys
  clock : Time

/-- Nobody at work, at time zero. -/
def Clocked.init : Clocked := ⟨Sys.init, 0⟩

/-- One atomic step, or the passing of time. -/
inductive ClockAction
  | base (a : Action)
  | tick (d : ℕ)

/-- The clock readings of the process that an action carries. -/
def Action.readings : Action → List Time
  | .enqueue _ (.insert _ now createNow) => [now, createNow]
  | .cancel _ (.write now) => [now]
  | .claimNext _ call => [call.now]
  | .worker _ (.checkDue now) => [now]
  | .worker _ (.wake now) => [now]
  | .worker _ (.prepare now _ _) => [now]
  | .worker _ (.write now) => [now]
  | .worker _ (.finish (.ok now)) => [now]
  | .worker _ (.finish (.error _ now _)) => [now]
  | .worker _ (.renew now _ _) => [now]
  | _ => []

/-- The values of SQL `NOW()` that an action carries. -/
def Action.dbReadings : Action → List Timestamp
  | .requeue dbNow _ _ => [dbNow]
  | .claimNext _ call => [call.dbNow]
  | .worker _ (.renew _ dbNow _) => [dbNow]
  | .worker _ (.releaseClaim dbNow) => [dbNow]
  | _ => []

/-- No reading of the action lies in the future. -/
def Action.readBy (clock : Time) (a : Action) : Bool :=
  a.readings.all (· ≤ clock) && a.dbReadings.all (· ≤ toTimestamp clock)

/-- One step of the clocked system. -/
def clockStep (cfg : Config) (s : Clocked) : ClockAction → Option Clocked
  | .base a =>
    if a.readBy s.clock then
      match step cfg s.base a with
      | none => none
      | some base => some { s with base := base }
    else none
  | .tick d => some { s with clock := s.clock + d }

/-- The steps of the clocked system, one by one. -/
inductive ClockStep (cfg : Config) (s : Clocked) : ClockAction → Clocked → Prop
  | base {a : Action} {base : Sys} (hread : a.readBy s.clock = true)
      (h : step cfg s.base a = some base) :
      ClockStep cfg s (.base a) { s with base := base }
  | tick {d : ℕ} : ClockStep cfg s (.tick d) { s with clock := s.clock + d }

/-- Every step of `clockStep` is one of the listed steps. -/
theorem clockStep_sound {cfg : Config} {s s' : Clocked} {b : ClockAction}
    (h : clockStep cfg s b = some s') : ClockStep cfg s b s' := by
  cases b with
  | base a =>
      simp only [clockStep] at h
      split at h
      · rename_i hread
        split at h
        · cases h
        · rename_i base hstep
          cases h
          exact .base hread hstep
      · cases h
  | tick d =>
      simp only [clockStep] at h
      cases h
      exact .tick

/-- **The clocked system runs the system without a clock**, so everything shown of every run
of the latter holds of the former. -/
theorem clockStep_base {cfg : Config} {bs : List ClockAction} {s : Clocked}
    (h : exec (clockStep cfg) Clocked.init bs = some s) :
    ∃ as, exec (step cfg) Sys.init as = some s.base := by
  refine exec_simulation Clocked.base ?_ h
  intro s b s' hstep
  cases clockStep_sound hstep with
  | base _ hbase => exact ⟨[_], by rw [exec_singleton]; exact hbase⟩
  | tick => exact ⟨[], rfl⟩

/-- The clock never goes back, in a step. -/
theorem clock_le_of_step {cfg : Config} {s s' : Clocked} {b : ClockAction}
    (h : clockStep cfg s b = some s') : s.clock ≤ s'.clock := by
  cases clockStep_sound h with
  | base => exact le_refl _
  | tick => exact Int.le_add_of_nonneg_right (Int.natCast_nonneg _)

/-- The clock never goes back, in a run. -/
theorem clock_le_of_exec {cfg : Config} {s t : Clocked} {bs : List ClockAction}
    (h : exec (clockStep cfg) s bs = some t) : s.clock ≤ t.clock := by
  refine exec_invariant (I := fun u => s.clock ≤ u.clock) ?_ (le_refl _) h
  intro u b v hle hstep
  exact le_trans hle (clock_le_of_step hstep)

/-! ### Claims and due times -/

/-- The slot whose copy an action may claim. -/
def Action.claimant : Action → Option ℕ
  | .claimNext i _ => some i
  | .worker i (.write _) => some i
  | _ => none

/-- The row's due time has come. -/
def Row.DueBy (r : Row) (clock : Time) : Prop := ∀ ts ∈ r.scheduledAt, ofTimestamp ts ≤ clock

instance (r : Row) (clock : Time) : Decidable (r.DueBy clock) :=
  inferInstanceAs (Decidable (∀ ts ∈ r.scheduledAt, ofTimestamp ts ≤ clock))

/-- Whenever a handler starts after the claim of a `PENDING` row, the due time that the row
had just before the claim has come. -/
def BackoffHonoured (cfg : Config) (bs : List ClockAction) : Prop :=
  ∀ pre a mid post u v x y i k token r,
    bs = pre ++ .base a :: (mid ++ .base (.worker i .exec) :: post) →
    exec (clockStep cfg) Clocked.init pre = some u → clockStep cfg u (.base a) = some v →
    exec (clockStep cfg) v mid = some x →
    clockStep cfg x (.base (.worker i .exec)) = some y →
    (y.base.workers i).pc = .executing →
    a.claimant = some i → Wins cfg u.base a k token →
    u.base.db.find? k = some r → r.state = .pending → r.DueBy x.clock

/-- The action is the write of a Kafka claim that finds its row `PENDING` with a later due
time, still to come, in place of the one in its copy. -/
def postponedClaim (s : Clocked) : ClockAction → Bool
  | .base (.worker i (.write _)) =>
    (s.base.workers i).pc = .write .claim &&
      (s.base.db.find? (s.base.workers i).job.id).any fun r =>
        r.state = .pending ∧
          r.scheduledAt ≠ (s.base.workers i).job.scheduledAt.map toTimestamp ∧
          ¬ r.DueBy s.clock
  | _ => false

/-! ### The test at the beginning of `Run` -/

/-- The program counters between the due-time test of `Run` and the end of its claim. -/
def Pc.pastDue : Pc → Bool
  | .breaker | .locking | .locked | .read .claim | .write .claim => true
  | _ => false

/-- A worker gets past the due-time test with a reading of the clock at or after the due time
of its copy. -/
theorem WorkerStep.pastDue {cfg : Config} {db db' : Jobs} {w w' : Worker} {act : WorkerAct}
    (h : WorkerStep cfg db w act db' w') (i : ℕ) (hpast : w'.pc.pastDue = true) :
    w'.job.scheduledAt = w.job.scheduledAt ∧
      (w.pc.pastDue = true ∨ ∃ now ∈ (Action.worker i act).readings,
        ∀ t ∈ w.job.scheduledAt, t ≤ now) := by
  cases h with
  | due _ hdue => exact ⟨rfl, .inr ⟨_, List.mem_singleton.mpr rfl, hdue⟩⟩
  | woke _ hdue => exact ⟨rfl, .inr ⟨_, List.mem_singleton.mpr rfl, hdue⟩⟩
  | allowed hpc => exact ⟨rfl, .inl (by rw [hpc]; rfl)⟩
  | lockedUnclaimed hpc => exact ⟨rfl, .inl (by rw [hpc]; rfl)⟩
  | prepared hpc => exact ⟨rfl, .inl (by rw [hpc]; rfl)⟩
  | @checked p hpc =>
      refine ⟨rfl, .inl ?_⟩
      rw [hpc]
      cases p <;> first | rfl | cases hpast
  | renewed => exact ⟨rfl, .inl hpast⟩
  | notRenewed => exact ⟨rfl, .inl hpast⟩
  | renewFailed => exact ⟨rfl, .inl hpast⟩
  | refused => rcases w.giveUp_cases _ with heq | ⟨heq, -⟩ <;> rw [heq] at hpast <;> cases hpast
  | notLocked => rcases w.giveUp_cases _ with heq | ⟨heq, -⟩ <;> rw [heq] at hpast <;> cases hpast
  | noHandler =>
      rcases w.failed_cases cfg _ _ with heq | heq <;> rw [heq] at hpast <;> cases hpast
  | failed => rcases w.failed_cases cfg _ _ with heq | heq <;> rw [heq] at hpast <;> cases hpast
  | @written _ p => cases p <;> cases hpast
  | _ => cases hpast

/-- The due time of every copy beyond the test has come. -/
def Clocked.PastDue (s : Clocked) : Prop :=
  ∀ i, (s.base.workers i).pc.pastDue = true →
    ∀ t ∈ (s.base.workers i).job.scheduledAt, t ≤ s.clock

/-- Every step keeps the due times behind the clock. -/
theorem step_pastDue {cfg : Config} {s s' : Clocked} {b : ClockAction} (hold : s.PastDue)
    (h : clockStep cfg s b = some s') : s'.PastDue := by
  intro i hpast t ht
  cases clockStep_sound h with
  | tick => exact le_trans (hold i hpast t ht) (clock_le_of_step h)
  | base hread hstep =>
      cases step_workerChange hstep i with
      | same heq =>
          rw [heq] at hpast ht
          exact hold i hpast t ht
      | claimed _ _ heq =>
          rw [heq] at hpast
          cases hpast
      | delivered _ _ heq =>
          rw [heq] at hpast
          cases hpast
      | moved hmove =>
          obtain ⟨hsched, hpast' | ⟨now, hnow, hdue⟩⟩ := hmove.pastDue i hpast
          · rw [hsched] at ht
            exact hold i hpast' t ht
          · rw [hsched] at ht
            rw [Action.readBy, Bool.and_eq_true, List.all_eq_true] at hread
            exact le_trans (hdue t ht) (of_decide_eq_true (hread.1 now hnow))

/-- In every run the due time of every copy beyond the test has come. -/
theorem pastDue_of_exec {cfg : Config} {bs : List ClockAction} {s : Clocked}
    (h : exec (clockStep cfg) Clocked.init bs = some s) : s.PastDue := by
  have hinit : Clocked.init.PastDue := by
    intro i hpast
    cases hpast
  have hstep : ∀ u b v, u.PastDue → clockStep cfg u b = some v → v.PastDue :=
    fun u b v hold hstep => step_pastDue hold hstep
  exact exec_invariant hstep hinit h

/-! ### Claims take due rows -/

/-- A stored due time lies at or before the instant it was made from. -/
theorem ofTimestamp_toTimestamp_le (t : Time) : ofTimestamp (toTimestamp t) ≤ t :=
  Int.ediv_mul_le t (by decide)

/-- A due time that SQL `NOW()` has reached has come. -/
theorem dueBy_of_le {r : Row} {dbNow : Timestamp} {clock : Time}
    (hdue : ∀ ts ∈ r.scheduledAt, ts ≤ dbNow) (hnow : dbNow ≤ toTimestamp clock) :
    r.DueBy clock := by
  intro ts hts
  have hle : ts ≤ toTimestamp clock := le_trans (hdue ts hts) hnow
  have hmul : ofTimestamp ts ≤ ofTimestamp (toTimestamp clock) :=
    Int.mul_le_mul_of_nonneg_right hle (by decide)
  exact le_trans hmul (ofTimestamp_toTimestamp_le clock)

/-- A row with the due time of a copy beyond the test is due. -/
theorem dueBy_of_copy {r : Row} {job : Job} {clock : Time}
    (hcopy : ∀ t ∈ job.scheduledAt, t ≤ clock)
    (hsame : r.scheduledAt = job.scheduledAt.map toTimestamp) : r.DueBy clock := by
  intro ts hts
  rw [hsame, Option.mem_def, Option.map_eq_some_iff] at hts
  obtain ⟨t, ht, rfl⟩ := hts
  exact le_trans (ofTimestamp_toTimestamp_le t) (hcopy t ht)

/-- `ClaimNextJob` takes a due row. -/
theorem due_of_claimNext {cfg : Config} {s s' : Clocked} {i : ℕ} {call : ClaimCall}
    {k token : String} {r : Row} (h : clockStep cfg s (.base (.claimNext i call)) = some s')
    (hwin : Wins cfg s.base (.claimNext i call) k token)
    (hfind : s.base.db.find? k = some r) : r.DueBy s.clock := by
  obtain ⟨job, hok, rfl, -⟩ := hwin
  rcases claimNextJob_spec cfg.nulls call s.base.db with
    ⟨-, heq⟩ | ⟨x, hsel, hx, -, heq⟩
  · rw [heq] at hok
    cases hok
  · rw [heq] at hok
    obtain ⟨rfl, -⟩ := scanJob_eq_ok_iff.mp hok
    have hrx : s.base.db.find? x.id = some r := hfind
    rw [hx] at hrx
    obtain rfl := Option.some.inj hrx
    obtain ⟨-, -, hclaim⟩ := selectDue_spec hsel
    simp only [claimable, decide_eq_true_eq] at hclaim
    cases clockStep_sound h with
    | base hread _ =>
        simp only [Action.readBy, Action.dbReadings, List.all_cons, List.all_nil,
          Bool.and_true, Bool.and_eq_true, decide_eq_true_eq] at hread
        exact dueBy_of_le hclaim.2.1 hread.2

/-- **Claims.** A claim of a `PENDING` row takes a due row, unless it is the claim of a Kafka
copy whose row has been postponed. -/
theorem due_of_claim {cfg : Config} {s s' : Clocked} {a : Action} {k token : String} {r : Row}
    (hpast : s.PastDue) (h : clockStep cfg s (.base a) = some s')
    (hwin : Wins cfg s.base a k token) (hfind : s.base.db.find? k = some r)
    (hpending : r.state = .pending) (hnot : postponedClaim s (.base a) = false) :
    r.DueBy s.clock := by
  rcases hwin.action with ⟨i, call, rfl⟩ | ⟨i, now, rfl⟩
  · exact due_of_claimNext h hwin hfind
  · obtain ⟨hpc, -, rfl, -⟩ := hwin
    by_cases hsame : r.scheduledAt = (s.base.workers i).job.scheduledAt.map toTimestamp
    · exact dueBy_of_copy (hpast i (by rw [hpc]; rfl)) hsame
    · simpa [postponedClaim, hpc, hfind, hpending, hsame] using hnot

/-- **Backoff is honoured** in every run in which no Kafka claim meets a row that was
postponed beyond the present. -/
theorem backoffHonoured_of_allSteps {cfg : Config} {bs : List ClockAction}
    (hall : AllSteps (clockStep cfg) (fun s b _ => postponedClaim s b = false)
      Clocked.init bs) :
    BackoffHonoured cfg bs := by
  intro pre a mid post u v x y i k token r hbs hpre ha hmid _ _ _ hwin hfind hpending
  have hnot : postponedClaim u (.base a) = false := hall pre _ _ u v hbs hpre ha
  have hdue : r.DueBy u.clock :=
    due_of_claim (pastDue_of_exec hpre) ha hwin hfind hpending hnot
  have hclock : u.clock ≤ x.clock := le_trans (clock_le_of_step ha) (clock_le_of_exec hmid)
  intro ts hts
  exact le_trans (hdue ts hts) hclock

/-- The first attempt of the sample job fails at time zero and is rescheduled for a second
later. -/
def firstFailure : List ClockAction := (enqueueSample ++ failOnce 0 1 0).map .base

/-- Ten seconds later a reconciler claims the job, and its handler starts. -/
def reclaimed : List ClockAction :=
  firstFailure ++ .tick 10000000000 ::
    (claimSample 1 2 (10 * second) :: runClaimed 1 (10 * second)).map .base

/-- The second attempt of the sample job waits for the end of the backoff. -/
theorem backoffHonoured_reclaimed :
    (∃ s, exec (clockStep ⟨.empty, 5⟩) Clocked.init reclaimed = some s ∧
      (s.base.workers 1).pc = .executing) ∧
    BackoffHonoured ⟨.empty, 5⟩ reclaimed := by
  constructor
  · obtain ⟨s, hs, hpc⟩ := (Option.any_eq_true _ _).mp
      (show (exec (clockStep ⟨.empty, 5⟩) Clocked.init reclaimed).any
        (fun s => (s.base.workers 1).pc = .executing) = true by decide +kernel)
    exact ⟨s, hs, of_decide_eq_true hpc⟩
  · have hcheck : checkSteps (clockStep ⟨.empty, 5⟩) (fun s b => !postponedClaim s b)
        Clocked.init reclaimed = true := by decide +kernel
    exact backoffHonoured_of_allSteps (allSteps_of_checkSteps_not hcheck)

/-- Half a second after the failure the Kafka message of the enqueue is delivered, and its
copy reaches the write of its claim. -/
def lateDelivery : List ClockAction :=
  firstFailure ++ .tick 500000000 :: (claimDelivered 1 2 (second / 2)).map .base

/-- The message claims the job half a second before it is due, and the handler starts. -/
theorem not_backoffHonoured_lateDelivery :
    ¬ BackoffHonoured ⟨.empty, 5⟩ (lateDelivery ++
      [.base (.worker 1 (.write (second / 2))), .base (.worker 1 .exec)]) := by
  obtain ⟨u, hu, h⟩ := (Option.any_eq_true _ _).mp
    (show (exec (clockStep ⟨.empty, 5⟩) Clocked.init lateDelivery).any (fun u =>
        decide ((u.base.workers 1).pc = .write .claim ∧
          (updateJobExec (second / 2) (u.base.workers 1).job u.base.db).2 = .ok () ∧
          (u.base.workers 1).job.id = sampleId) &&
        (u.base.db.find? sampleId).any (fun r =>
          decide (r.state = .pending) && !decide (r.DueBy (second / 2))) &&
        (clockStep ⟨.empty, 5⟩ u (.base (.worker 1 (.write (second / 2))))).any fun v =>
          decide (v.clock = second / 2) &&
          (clockStep ⟨.empty, 5⟩ v (.base (.worker 1 .exec))).any fun y =>
            (y.base.workers 1).pc = .executing) = true by decide +kernel)
  simp only [Bool.and_eq_true, Option.any_eq_true, decide_eq_true_eq, Bool.not_eq_true',
    decide_eq_false_iff_not] at h
  obtain ⟨⟨⟨hpc, hok, hid⟩, r, hfind, hpending, hnot⟩, v, hv, hclock, y, hy, hexec⟩ := h
  intro hall
  have hdue := hall lateDelivery (.worker 1 (.write (second / 2))) [] [] u v v y 1 sampleId _ r
    rfl hu hv rfl hy hexec rfl ⟨hpc, hok, hid, rfl⟩ hfind hpending
  rw [hclock] at hdue
  exact hnot hdue

end Conduit
