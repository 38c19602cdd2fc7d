import Conduit.Service

/-!
# The Worker's `Run` as a State Machine

`jobWorker.Run` handles one copy of a job: it waits for `scheduled_at`, asks the circuit
breaker, takes the execution lock, claims the job if the copy is not claimed yet, runs
the handler and records the outcome. A `Worker` is one such copy with its program
counter; it starts with the copy in the hands of the reconciler (`claimed`) or in the
pool's queue (`queued`).

`workerStep` moves one worker on by one action. The actions carry everything the worker
does not decide: clock readings, random bytes, the answers of the breaker and of the lock
manager, the outcome of the handler, a store call that fails without effect, and a crash.
`WorkerStep` lists the same moves one by one, with the condition of each.

## Main results

* `workerStep_sound`: every move of `workerStep` is one of the moves of `WorkerStep`.
* `WorkerStep.jobOk`: what the copy of the job holds at each program counter.
* `WorkerStep.find?`: what a move does to each row of the table.
-/

namespace Conduit

open KeyedTable

/-- The parts of the server's configuration the model depends on: what the driver does
with `NULL` text and the retry engine's `MaxAttempts`. -/
structure Config where
  nulls : NullText
  maxAttempts : ℤ

/-- The error of a handler, with its text and whether `errors.Is(err, ErrNoRetry)`. -/
structure RunError where
  message : String
  noRetry : Bool

/-- `Engine.ShouldRetry`. -/
def Config.engineShouldRetry (cfg : Config) (attempt : ℤ) (err : RunError) : Bool :=
  if err.noRetry then false
  else if cfg.maxAttempts > 0 ∧ attempt ≥ cfg.maxAttempts then false
  else true

/-- `jobWorker.shouldRetry`. -/
def Config.shouldRetry (cfg : Config) (job : Job) (err : RunError) : Bool :=
  if job.task.maxRetries > 0 then !err.noRetry && job.attempt < job.task.maxRetries
  else cfg.engineShouldRetry job.attempt err

/-- `maxInWorkerSleep`. -/
def maxInWorkerSleep : Duration := 60 * second

/-- `effectiveLease`, for the configured lease. -/
def effectiveLease (lease : Duration) : Duration :=
  if lease > 0 then lease else 5 * 60 * second

/-- The task names of `defaultHandlers`. -/
def handlerRegistered (name : String) : Bool :=
  name = "webhook" ∨ name = "sql.etl"

/-- The error `execute` returns for a task without a handler; on printable ASCII names
Go's `%q` quotes as `String.quote` does. -/
def noHandlerError (name : String) : RunError where
  message := "worker: no handler registered for task " ++ name.quote ++
    ": retry: permanent failure, no retry"
  noRetry := true

/-- The `UpdateJob` calls a `Run` makes: the claim of a Kafka-delivered copy, the record
of success, the two writes of `scheduleRetry` and the write of `deadLetter`. -/
inductive Phase
  | claim
  | complete
  | fail (nextRun : Time)
  | reschedule
  | deadLetter
  deriving DecidableEq

/-- Where a copy of a job is. -/
inductive Pc
  | idle
  /-- Returned by `ClaimNextJob`, not yet submitted to the pool. -/
  | claimed
  /-- Accepted by the pool; `Run` has not begun. -/
  | queued
  /-- `Run` has begun. -/
  | entry
  | sleeping
  | breaker
  | locking
  /-- The lock is held and the copy has to be claimed. -/
  | locked
  /-- Before the `GetJob` of an `UpdateJob` call. -/
  | read (p : Phase)
  /-- Between the `GetJob` and the `UPDATE` of an `UpdateJob` call. -/
  | write (p : Phase)
  /-- About to execute. -/
  | ready
  /-- The handler is in progress. -/
  | executing
  /-- Before `ReleaseClaim`. -/
  | release (reason : String)
  /-- `Run` is returning, with the deferred calls still to be made. -/
  | unlock
  | done
  deriving DecidableEq

/-- A program counter with a property that `idle` has not. -/
theorem Pc.ne_idle {P : Pc → Bool} {pc : Pc} (hidle : P .idle = false) (h : P pc = true) :
    pc ≠ .idle := by
  rintro rfl
  rw [hidle] at h
  cases h

/-- The zero `models.Job`. -/
def zeroJob : Job :=
  requestJob ⟨"", ⟨"", "", none, 0, 0, 0, "", "", none⟩, none, none⟩

/-- A copy of a job on its way through a worker. `renewing` says that the lease renewal
goroutine is running. -/
structure Worker where
  pc : Pc
  job : Job
  renewing : Bool

/-- A slot that no copy has used yet. -/
def Worker.unused : Worker := ⟨.idle, zeroJob, false⟩

/-- How a handler ends. -/
inductive Outcome
  | ok (now : Time)
  | error (err : RunError) (now : Time) (delay : Duration)
  | panic

/-- A step of a worker. -/
inductive WorkerAct
  | submit (accepted : Bool)
  | begin
  | checkDue (now : Time)
  | wake (now : Time)
  | ctxDone
  | allow (allowed : Bool)
  | acquire (acquired : Bool)
  | prepare (now : Time) (lease : Duration) (rand : RandomBytes)
  | tokenFail
  | read
  | write (now : Time)
  | exec
  | finish (outcome : Outcome)
  | renew (now : Time) (dbNow : Timestamp) (lease : Duration)
  | renewFail
  | releaseClaim (dbNow : Timestamp)
  | unlock
  | storeFail
  | crash

namespace Worker

/-- Move on with the copy unchanged. -/
def goto (w : Worker) (pc : Pc) : Worker := { w with pc := pc }

/-- Return early, through `releaseClaim`, which does nothing for an unclaimed copy. -/
def giveUp (w : Worker) (reason : String) : Worker :=
  if w.job.state ≠ .running ∨ w.job.leaseToken = "" then w.goto .done
  else w.goto (.release reason)

/-- Go on to execute the job, with lease renewal started. -/
def claimHeld (w : Worker) : Worker :=
  { w with pc := .ready, renewing := w.job.state = .running ∧ w.job.leaseToken ≠ "" }

/-- Set up the claim of an unclaimed copy. -/
def claiming (now : Time) (lease : Duration) (rand : RandomBytes) (w : Worker) : Worker :=
  { w with
    pc := .read .claim
    job :=
      { w.job with
        attempt := w.job.attempt + 1
        state := .running
        startedAt := some now
        leaseExpiresAt := some (now + effectiveLease lease)
        leaseToken := newWorkerLeaseToken rand } }

/-- The handler succeeded: record `COMPLETED`. -/
def succeeded (now : Time) (w : Worker) : Worker :=
  { w with
    pc := .read .complete
    job := { w.job with state := .completed, completedAt := some now, leaseExpiresAt := none } }

/-- The handler failed: the first write of `scheduleRetry`, or `deadLetter`. -/
def failed (cfg : Config) (err : RunError) (nextRun : Time) (w : Worker) : Worker :=
  if cfg.shouldRetry w.job err then
    { w with
      pc := .read (.fail nextRun)
      job := { w.job with state := .failed, lastError := err.message } }
  else
    { w with
      pc := .read .deadLetter
      job := { w.job with state := .dead, lastError := err.message, leaseExpiresAt := none } }

/-- After an `UpdateJob` that succeeded. -/
def recorded (p : Phase) (w : Worker) : Worker :=
  match p with
  | .claim => w.claimHeld
  | .fail nextRun =>
    { w with
      pc := .read .reschedule
      job :=
        { w.job with
          state := .pending
          scheduledAt := some nextRun
          startedAt := none
          leaseExpiresAt := none } }
  | _ => w.goto .unlock

/-- The process is gone, or `Run` has returned. -/
def stopped (w : Worker) : Worker := { w with pc := .done, renewing := false }

theorem giveUp_job (w : Worker) (reason : String) :
    (w.giveUp reason).job = w.job := by
  unfold giveUp
  split <;> rfl

/-- Giving up ends the `Run`, or goes on to release a claimed copy. -/
theorem giveUp_cases (w : Worker) (reason : String) :
    w.giveUp reason = w.goto .done ∨
      w.giveUp reason = w.goto (.release reason) ∧ w.job.state = .running := by
  unfold giveUp
  split
  · exact .inl rfl
  · rename_i h
    rw [not_or, not_not] at h
    exact .inr ⟨rfl, h.1⟩

/-- A failed execution goes on to the first write of a retry, or to the dead letter. -/
theorem failed_cases (cfg : Config) (err : RunError) (nextRun : Time) (w : Worker) :
    w.failed cfg err nextRun =
        { w with
          pc := .read (.fail nextRun)
          job := { w.job with state := .failed, lastError := err.message } } ∨
      w.failed cfg err nextRun =
        { w with
          pc := .read .deadLetter
          job :=
            { w.job with
              state := .dead
              lastError := err.message
              leaseExpiresAt := none } } := by
  unfold failed
  split
  · exact .inl rfl
  · exact .inr rfl

end Worker

/-- One step of a worker, on the table and the worker; `none` when the action is not
enabled. -/
def workerStep (cfg : Config) (db : Jobs) (w : Worker) (act : WorkerAct) :
    Option (Jobs × Worker) :=
  match act, w.pc with
  | .submit true, .claimed => some (db, w.goto .queued)
  | .submit false, .claimed =>
    some (db, w.goto (.release "worker pool rejected claimed job"))
  | .begin, .queued => some (db, w.goto .entry)
  | .checkDue now, .entry =>
    match w.job.scheduledAt with
    | none => some (db, w.goto .breaker)
    | some t =>
      if t - now ≤ 0 then some (db, w.goto .breaker)
      else if t - now > maxInWorkerSleep then some (db, w.goto .done)
      else some (db, w.goto .sleeping)
  | .wake now, .sleeping =>
    if ∀ t ∈ w.job.scheduledAt, t ≤ now then some (db, w.goto .breaker) else none
  | .ctxDone, .sleeping => some (db, w.goto .done)
  | .allow true, .breaker => some (db, w.goto .locking)
  | .allow false, .breaker => some (db, w.giveUp "circuit open")
  | .acquire true, .locking =>
    if w.job.state = .running then some (db, w.claimHeld) else some (db, w.goto .locked)
  | .acquire false, .locking => some (db, w.giveUp "could not acquire execution lock")
  | .prepare now lease rand, .locked => some (db, w.claiming now lease rand)
  | .tokenFail, .locked => some (db, w.goto .unlock)
  | .read, .read p =>
    match updateJobCheck cfg.nulls w.job db with
    | .ok () => some (db, w.goto (.write p))
    | .error _ => some (db, w.goto .unlock)
  | .write now, .write p =>
    match updateJobExec now w.job db with
    | (db', .ok ()) => some (db', w.recorded p)
    | (db', .error _) => some (db', w.goto .unlock)
  | .exec, .ready =>
    if handlerRegistered w.job.task.name then some (db, w.goto .executing)
    else some (db, w.failed cfg (noHandlerError w.job.task.name) 0)
  | .finish (.ok now), .executing => some (db, w.succeeded now)
  | .finish (.error err now delay), .executing => some (db, w.failed cfg err (now + delay))
  | .finish .panic, .executing => some (db, w.goto .unlock)
  | .renew now dbNow lease, _ =>
    if w.renewing then
      match renewLease now dbNow (effectiveLease lease) w.job db with
      | (db', .ok ()) => some (db', w)
      | (db', .error _) => some (db', { w with renewing := false })
    else none
  | .renewFail, _ => if w.renewing then some (db, { w with renewing := false }) else none
  | .releaseClaim dbNow, .release reason =>
    some ((releaseClaim dbNow w.job reason db).1, w.goto .done)
  | .unlock, .unlock => some (db, w.stopped)
  | .storeFail, .read _ => some (db, w.goto .unlock)
  | .storeFail, .write _ => some (db, w.goto .unlock)
  | .storeFail, .release _ => some (db, w.goto .done)
  | .crash, .idle => none
  | .crash, _ => some (db, w.stopped)
  | _, _ => none

/-- The moves of a worker, one by one. -/
inductive WorkerStep (cfg : Config) (db : Jobs) (w : Worker) :
    WorkerAct → Jobs → Worker → Prop
  | submitted (h : w.pc = .claimed) : WorkerStep cfg db w (.submit true) db (w.goto .queued)
  | rejected (h : w.pc = .claimed) :
      WorkerStep cfg db w (.submit false) db
        (w.goto (.release "worker pool rejected claimed job"))
  | begun (h : w.pc = .queued) : WorkerStep cfg db w .begin db (w.goto .entry)
  | due {now : Time} (h : w.pc = .entry) (hdue : ∀ t ∈ w.job.scheduledAt, t ≤ now) :
      WorkerStep cfg db w (.checkDue now) db (w.goto .breaker)
  | tooFar {now t : Time} (h : w.pc = .entry) (ht : w.job.scheduledAt = some t)
      (hwait : maxInWorkerSleep < t - now) :
      WorkerStep cfg db w (.checkDue now) db (w.goto .done)
  | slept {now t : Time} (h : w.pc = .entry) (ht : w.job.scheduledAt = some t)
      (hpos : 0 < t - now) (hwait : t - now ≤ maxInWorkerSleep) :
      WorkerStep cfg db w (.checkDue now) db (w.goto .sleeping)
  | woke {now : Time} (h : w.pc = .sleeping) (hdue : ∀ t ∈ w.job.scheduledAt, t ≤ now) :
      WorkerStep cfg db w (.wake now) db (w.goto .breaker)
  | ctxDone (h : w.pc = .sleeping) : WorkerStep cfg db w .ctxDone db (w.goto .done)
  | allowed (h : w.pc = .breaker) : WorkerStep cfg db w (.allow true) db (w.goto .locking)
  | refused (h : w.pc = .breaker) :
      WorkerStep cfg db w (.allow false) db (w.giveUp "circuit open")
  | lockedClaimed (h : w.pc = .locking) (hstate : w.job.state = .running) :
      WorkerStep cfg db w (.acquire true) db w.claimHeld
  | lockedUnclaimed (h : w.pc = .locking) (hstate : w.job.state ≠ .running) :
      WorkerStep cfg db w (.acquire true) db (w.goto .locked)
  | notLocked (h : w.pc = .locking) :
      WorkerStep cfg db w (.acquire false) db (w.giveUp "could not acquire execution lock")
  | prepared {now : Time} {lease : Duration} {rand : RandomBytes} (h : w.pc = .locked) :
      WorkerStep cfg db w (.prepare now lease rand) db (w.claiming now lease rand)
  | tokenFailed (h : w.pc = .locked) : WorkerStep cfg db w .tokenFail db (w.goto .unlock)
  | checked {p : Phase} (h : w.pc = .read p)
      (hok : updateJobCheck cfg.nulls w.job db = .ok ()) :
      WorkerStep cfg db w .read db (w.goto (.write p))
  | notChecked {p : Phase} (h : w.pc = .read p)
      (herr : updateJobCheck cfg.nulls w.job db ≠ .ok ()) :
      WorkerStep cfg db w .read db (w.goto .unlock)
  | written {now : Time} {p : Phase} (h : w.pc = .write p)
      (hok : (updateJobExec now w.job db).2 = .ok ()) :
      WorkerStep cfg db w (.write now) (updateJobExec now w.job db).1 (w.recorded p)
  | notWritten {now : Time} {p : Phase} (h : w.pc = .write p)
      (herr : (updateJobExec now w.job db).2 ≠ .ok ()) :
      WorkerStep cfg db w (.write now) (updateJobExec now w.job db).1 (w.goto .unlock)
  | started (h : w.pc = .ready) (hreg : handlerRegistered w.job.task.name = true) :
      WorkerStep cfg db w .exec db (w.goto .executing)
  | noHandler (h : w.pc = .ready) (hreg : handlerRegistered w.job.task.name = false) :
      WorkerStep cfg db w .exec db (w.failed cfg (noHandlerError w.job.task.name) 0)
  | succeeded {now : Time} (h : w.pc = .executing) :
      WorkerStep cfg db w (.finish (.ok now)) db (w.succeeded now)
  | failed {err : RunError} {now : Time} {delay : Duration} (h : w.pc = .executing) :
      WorkerStep cfg db w (.finish (.error err now delay)) db (w.failed cfg err (now + delay))
  | panicked (h : w.pc = .executing) :
      WorkerStep cfg db w (.finish .panic) db (w.goto .unlock)
  | renewed {now : Time} {dbNow : Timestamp} {lease : Duration} (h : w.renewing = true)
      (hok : (renewLease now dbNow (effectiveLease lease) w.job db).2 = .ok ()) :
      WorkerStep cfg db w (.renew now dbNow lease)
        (renewLease now dbNow (effectiveLease lease) w.job db).1 w
  | notRenewed {now : Time} {dbNow : Timestamp} {lease : Duration} (h : w.renewing = true)
      (herr : (renewLease now dbNow (effectiveLease lease) w.job db).2 ≠ .ok ()) :
      WorkerStep cfg db w (.renew now dbNow lease)
        (renewLease now dbNow (effectiveLease lease) w.job db).1
        { w with renewing := false }
  | renewFailed (h : w.renewing = true) :
      WorkerStep cfg db w .renewFail db { w with renewing := false }
  | released {dbNow : Timestamp} {reason : String} (h : w.pc = .release reason) :
      WorkerStep cfg db w (.releaseClaim dbNow) (releaseClaim dbNow w.job reason db).1
        (w.goto .done)
  | unlocked (h : w.pc = .unlock) : WorkerStep cfg db w .unlock db w.stopped
  | readFailed {p : Phase} (h : w.pc = .read p) :
      WorkerStep cfg db w .storeFail db (w.goto .unlock)
  | writeFailed {p : Phase} (h : w.pc = .write p) :
      WorkerStep cfg db w .storeFail db (w.goto .unlock)
  | releaseFailed {reason : String} (h : w.pc = .release reason) :
      WorkerStep cfg db w .storeFail db (w.goto .done)
  | crashed (h : w.pc ≠ .idle) : WorkerStep cfg db w .crash db w.stopped

/-- Every move of `workerStep` is one of the listed moves. -/
theorem workerStep_sound {cfg : Config} {db db' : Jobs} {w w' : Worker} {act : WorkerAct}
    (h : workerStep cfg db w act = some (db', w')) : WorkerStep cfg db w act db' w' := by
  unfold workerStep at h
  split at h
  case h_1 hpc => cases h; exact .submitted hpc
  case h_2 hpc => cases h; exact .rejected hpc
  case h_3 hpc => cases h; exact .begun hpc
  case h_4 now hpc =>
    split at h
    · rename_i hsched
      cases h
      exact .due hpc (by simp [hsched])
    · rename_i t hsched
      split at h
      · rename_i hle
        cases h
        refine .due hpc ?_
        intro t' ht'
        obtain rfl : t = t' := by simpa [hsched] using ht'
        exact Int.le_of_sub_nonpos hle
      · rename_i hpos
        split at h
        · rename_i hwait
          cases h
          exact .tooFar hpc hsched hwait
        · rename_i hwait
          cases h
          exact .slept hpc hsched (not_le.mp hpos) (not_lt.mp hwait)
  case h_5 now hpc =>
    split at h
    · rename_i hdue
      cases h
      exact .woke hpc hdue
    · cases h
  case h_6 hpc => cases h; exact .ctxDone hpc
  case h_7 hpc => cases h; exact .allowed hpc
  case h_8 hpc => cases h; exact .refused hpc
  case h_9 hpc =>
    split at h
    · rename_i hstate
      cases h
      exact .lockedClaimed hpc hstate
    · rename_i hstate
      cases h
      exact .lockedUnclaimed hpc hstate
  case h_10 hpc => cases h; exact .notLocked hpc
  case h_11 hpc => cases h; exact .prepared hpc
  case h_12 hpc => cases h; exact .tokenFailed hpc
  case h_13 p hpc =>
    split at h
    · rename_i hok
      cases h
      exact .checked hpc hok
    · rename_i hok
      cases h
      exact .notChecked hpc (by simp [hok])
  case h_14 now p hpc =>
    split at h
    · rename_i db'' hexec
      cases h
      have hw : WorkerStep cfg db w (.write now) _ _ := .written hpc (by rw [hexec])
      rwa [hexec] at hw
    · rename_i db'' e hexec
      cases h
      have hw : WorkerStep cfg db w (.write now) _ _ := .notWritten hpc (by simp [hexec])
      rwa [hexec] at hw
  case h_15 hpc =>
    split at h
    · rename_i hreg
      cases h
      exact .started hpc hreg
    · rename_i hreg
      cases h
      exact .noHandler hpc (by simpa using hreg)
  case h_16 hpc => cases h; exact .succeeded hpc
  case h_17 hpc => cases h; exact .failed hpc
  case h_18 hpc => cases h; exact .panicked hpc
  case h_19 now dbNow lease =>
    split at h
    · rename_i hrenew
      split at h
      · rename_i db'' hexec
        cases h
        have hw : WorkerStep cfg db w (.renew now dbNow lease) _ _ :=
          .renewed hrenew (by rw [hexec])
        rwa [hexec] at hw
      · rename_i db'' e hexec
        cases h
        have hw : WorkerStep cfg db w (.renew now dbNow lease) _ _ :=
          .notRenewed hrenew (by simp [hexec])
        rwa [hexec] at hw
    · cases h
  case h_20 =>
    split at h
    · rename_i hrenew
      cases h
      exact .renewFailed hrenew
    · cases h
  case h_21 hpc => cases h; exact .released hpc
  case h_22 hpc => cases h; exact .unlocked hpc
  case h_23 hpc => cases h; exact .readFailed hpc
  case h_24 hpc => cases h; exact .writeFailed hpc
  case h_25 hpc => cases h; exact .releaseFailed hpc
  case h_26 => cases h
  case h_27 hpc => cases h; exact .crashed hpc
  case h_28 => cases h

/-! ### The copy of the job -/

/-- A copy of a job whose claim succeeded. -/
structure ClaimedJob (job : Job) : Prop where
  state : job.state = .running
  leaseToken : job.leaseToken ≠ ""
  startedAt : job.startedAt.isSome
  leaseExpiresAt : job.leaseExpiresAt.isSome

/-- What an `UpdateJob` call of each kind is about to write. -/
def Phase.JobOk (job : Job) : Phase → Prop
  | .claim => ClaimedJob job ∧ job.attempt = 1
  | .complete =>
    job.state = .completed ∧ job.leaseToken ≠ "" ∧ job.leaseExpiresAt = none ∧
      job.completedAt.isSome
  | .fail _ => job.state = .failed ∧ job.leaseToken ≠ ""
  | .reschedule =>
    job.state = .pending ∧ job.leaseToken ≠ "" ∧ job.startedAt = none ∧
      job.leaseExpiresAt = none
  | .deadLetter => job.state = .dead ∧ job.leaseToken ≠ ""

/-- The state an `UpdateJob` call of each kind writes. -/
def Phase.state : Phase → JobState
  | .claim => .running
  | .complete => .completed
  | .fail _ => .failed
  | .reschedule => .pending
  | .deadLetter => .dead

/-- What the copy of the job holds at each program counter. Up to the lock it is a
claimed copy or one that came through Kafka; only the latter is claimed there. -/
def Pc.JobOk (job : Job) : Pc → Prop
  | .idle | .unlock | .done => True
  | .claimed | .ready | .executing | .release _ => ClaimedJob job
  | .queued | .entry | .sleeping | .breaker | .locking => ClaimedJob job ∨ FreshJob job
  | .locked => FreshJob job
  | .read p | .write p => p.JobOk job

/-- The copy of a worker is as its program counter says. -/
def Worker.JobOk (w : Worker) : Prop := w.pc.JobOk w.job

/-- Only a claimed copy is `RUNNING` before it reaches the lock. -/
theorem claimedJob_of_running {job : Job} (h : ClaimedJob job ∨ FreshJob job)
    (hstate : job.state = .running) : ClaimedJob job := by
  rcases h with h | h
  · exact h
  · rw [h.state] at hstate
    cases hstate

/-- Only a Kafka copy is not `RUNNING` when it reaches the lock. -/
theorem freshJob_of_not_running {job : Job} (h : ClaimedJob job ∨ FreshJob job)
    (hstate : job.state ≠ .running) : FreshJob job := by
  rcases h with h | h
  · exact absurd h.state hstate
  · exact h

/-- Whatever a worker writes, it carries a lease token. -/
theorem Phase.JobOk.leaseToken_ne {p : Phase} {job : Job} (h : p.JobOk job) :
    job.leaseToken ≠ "" := by
  cases p with
  | claim => exact h.1.leaseToken
  | complete => exact h.2.1
  | fail => exact h.2
  | reschedule => exact h.2.1
  | deadLetter => exact h.2

/-- A worker writes the state of its call. -/
theorem Phase.JobOk.state_eq {p : Phase} {job : Job} (h : p.JobOk job) :
    job.state = p.state := by
  cases p with
  | claim => exact h.1.state
  | complete => exact h.1
  | fail => exact h.1
  | reschedule => exact h.1
  | deadLetter => exact h.1

/-- Only the claim writes `RUNNING`. -/
theorem Phase.JobOk.eq_claim {p : Phase} {job : Job} (h : p.JobOk job)
    (hstate : job.state = .running) : p = .claim := by
  rw [h.state_eq] at hstate
  cases p <;> first | rfl | cases hstate

/-- Only the first write of `scheduleRetry` writes `FAILED`. -/
theorem Phase.JobOk.eq_fail {p : Phase} {job : Job} (h : p.JobOk job)
    (hstate : job.state = .failed) : ∃ nextRun, p = .fail nextRun := by
  rw [h.state_eq] at hstate
  cases p <;> first | exact ⟨_, rfl⟩ | cases hstate

/-- A worker that writes finds its row by its token, unless it is claiming a row without
one. -/
theorem token_of_updateMatches {p : Phase} {job : Job} {r : Row} (hjob : p.JobOk job)
    (hmatch : updateMatches job r = true) :
    r.leaseToken = some job.leaseToken ∨
      p = .claim ∧ r.state = .pending ∧ r.leaseToken = none := by
  simp only [updateMatches, decide_eq_true_eq] at hmatch
  obtain ⟨-, htoken | htoken | ⟨hpending, hrunning, hnone⟩⟩ := hmatch
  · exact absurd htoken hjob.leaseToken_ne
  · exact .inl htoken
  · exact .inr ⟨hjob.eq_claim hrunning, hpending, hnone⟩

/-- The worker that gives up keeps a sound copy. -/
theorem Worker.jobOk_giveUp {w : Worker} (h : ClaimedJob w.job ∨ FreshJob w.job)
    (reason : String) : (w.giveUp reason).JobOk := by
  rcases w.giveUp_cases reason with heq | ⟨heq, hstate⟩ <;> rw [heq]
  · trivial
  · exact claimedJob_of_running h hstate

/-- The worker whose execution failed has a sound record of it to write. -/
theorem Worker.jobOk_failed {w : Worker} (h : ClaimedJob w.job) (cfg : Config)
    (err : RunError) (nextRun : Time) : (w.failed cfg err nextRun).JobOk := by
  rcases w.failed_cases cfg err nextRun with heq | heq <;> rw [heq]
  · exact ⟨rfl, h.leaseToken⟩
  · exact ⟨rfl, h.leaseToken⟩

/-- After a successful `UpdateJob` the copy is what the next part of `Run` expects. -/
theorem Worker.jobOk_recorded {w : Worker} {p : Phase} (h : p.JobOk w.job) :
    (w.recorded p).JobOk := by
  cases p with
  | claim => exact h.1
  | fail nextRun => exact ⟨rfl, h.2, rfl, rfl⟩
  | complete => trivial
  | reschedule => trivial
  | deadLetter => trivial

/-- **The copy.** Every move of a worker keeps its copy of the job as the program counter
says. -/
theorem WorkerStep.jobOk {cfg : Config} {db db' : Jobs} {w w' : Worker} {act : WorkerAct}
    (h : WorkerStep cfg db w act db' w') (hok : w.JobOk) : w'.JobOk := by
  unfold Worker.JobOk at hok
  cases h with
  | submitted hpc => rw [hpc] at hok; exact .inl hok
  | rejected hpc => rw [hpc] at hok; exact hok
  | begun hpc => rw [hpc] at hok; exact hok
  | due hpc => rw [hpc] at hok; exact hok
  | tooFar => trivial
  | slept hpc => rw [hpc] at hok; exact hok
  | woke hpc => rw [hpc] at hok; exact hok
  | ctxDone => trivial
  | allowed hpc => rw [hpc] at hok; exact hok
  | refused hpc => rw [hpc] at hok; exact Worker.jobOk_giveUp hok _
  | lockedClaimed hpc hstate => rw [hpc] at hok; exact claimedJob_of_running hok hstate
  | lockedUnclaimed hpc hstate => rw [hpc] at hok; exact freshJob_of_not_running hok hstate
  | notLocked hpc => rw [hpc] at hok; exact Worker.jobOk_giveUp hok _
  | prepared hpc =>
      rw [hpc] at hok
      refine ⟨⟨rfl, newLeaseToken_ne_empty _, rfl, rfl⟩, ?_⟩
      change w.job.attempt + 1 = 1
      rw [hok.attempt, Int.zero_add]
  | tokenFailed => trivial
  | checked hpc => rw [hpc] at hok; exact hok
  | notChecked => trivial
  | written hpc => rw [hpc] at hok; exact Worker.jobOk_recorded hok
  | notWritten => trivial
  | started hpc => rw [hpc] at hok; exact hok
  | noHandler hpc => rw [hpc] at hok; exact Worker.jobOk_failed hok cfg _ _
  | succeeded hpc => rw [hpc] at hok; exact ⟨rfl, hok.leaseToken, rfl, rfl⟩
  | failed hpc => rw [hpc] at hok; exact Worker.jobOk_failed hok cfg _ _
  | panicked => trivial
  | renewed => exact hok
  | notRenewed => exact hok
  | renewFailed => exact hok
  | released => trivial
  | unlocked => trivial
  | readFailed => trivial
  | writeFailed => trivial
  | releaseFailed => trivial
  | crashed => trivial

/-- A worker never changes the id and the task of its copy. -/
theorem WorkerStep.job_fixed {cfg : Config} {db db' : Jobs} {w w' : Worker} {act : WorkerAct}
    (h : WorkerStep cfg db w act db' w') :
    w'.job.id = w.job.id ∧ w'.job.task = w.job.task := by
  cases h with
  | refused => rw [Worker.giveUp_job]; exact ⟨rfl, rfl⟩
  | notLocked => rw [Worker.giveUp_job]; exact ⟨rfl, rfl⟩
  | noHandler => rcases w.failed_cases cfg _ _ with heq | heq <;> rw [heq] <;> exact ⟨rfl, rfl⟩
  | failed => rcases w.failed_cases cfg _ _ with heq | heq <;> rw [heq] <;> exact ⟨rfl, rfl⟩
  | @written _ p => cases p <;> exact ⟨rfl, rfl⟩
  | _ => exact ⟨rfl, rfl⟩

/-- A worker handles one job from beginning to end. -/
theorem WorkerStep.job_id {cfg : Config} {db db' : Jobs} {w w' : Worker} {act : WorkerAct}
    (h : WorkerStep cfg db w act db' w') : w'.job.id = w.job.id :=
  h.job_fixed.1

theorem WorkerStep.job_task {cfg : Config} {db db' : Jobs} {w w' : Worker} {act : WorkerAct}
    (h : WorkerStep cfg db w act db' w') : w'.job.task = w.job.task :=
  h.job_fixed.2

/-- `Run` begins at its entry. -/
theorem WorkerStep.pc_of_begin {cfg : Config} {db db' : Jobs} {w w' : Worker}
    (h : WorkerStep cfg db w .begin db' w') : w'.pc = .entry := by
  cases h
  rfl

/-- A copy that is submitted was claimed. -/
theorem WorkerStep.pc_of_submit {cfg : Config} {db db' : Jobs} {w w' : Worker} {accepted : Bool}
    (h : WorkerStep cfg db w (.submit accepted) db' w') : w.pc = .claimed := by
  cases h with
  | submitted hpc => exact hpc
  | rejected hpc => exact hpc

/-- A worker that writes stands before an `UPDATE`. -/
theorem WorkerStep.pc_of_write {cfg : Config} {db db' : Jobs} {w w' : Worker} {now : Time}
    (h : WorkerStep cfg db w (.write now) db' w') : ∃ p, w.pc = .write p := by
  cases h with
  | written hpc => exact ⟨_, hpc⟩
  | notWritten hpc => exact ⟨_, hpc⟩

/-- A handler is in progress after a move that found it in progress or started it. -/
theorem WorkerStep.executing {cfg : Config} {db db' : Jobs} {w w' : Worker} {act : WorkerAct}
    (h : WorkerStep cfg db w act db' w') (hexec : w'.pc = .executing) :
    w.pc = .executing ∨
      act = .exec ∧ w.pc = .ready ∧ handlerRegistered w.job.task.name = true := by
  cases h with
  | started hpc hreg => exact .inr ⟨rfl, hpc, hreg⟩
  | renewed => exact .inl hexec
  | notRenewed => exact .inl hexec
  | renewFailed => exact .inl hexec
  | refused => rcases w.giveUp_cases _ with heq | ⟨heq, -⟩ <;> rw [heq] at hexec <;> cases hexec
  | notLocked => rcases w.giveUp_cases _ with heq | ⟨heq, -⟩ <;> rw [heq] at hexec <;> cases hexec
  | noHandler =>
      rcases w.failed_cases cfg _ _ with heq | heq <;> rw [heq] at hexec <;> cases hexec
  | failed => rcases w.failed_cases cfg _ _ with heq | heq <;> rw [heq] at hexec <;> cases hexec
  | @written _ p => cases p <;> cases hexec
  | _ => cases hexec

/-- A worker that executes its job was about to. -/
theorem WorkerStep.ready_of_exec {cfg : Config} {db db' : Jobs} {w w' : Worker}
    (h : WorkerStep cfg db w .exec db' w') : w.pc = .ready := by
  cases h with
  | started hpc => exact hpc
  | noHandler hpc => exact hpc

/-- A registered handler starts. -/
theorem WorkerStep.pc_of_exec {cfg : Config} {db db' : Jobs} {w w' : Worker}
    (h : WorkerStep cfg db w .exec db' w')
    (hreg : handlerRegistered w.job.task.name = true) : w'.pc = .executing := by
  cases h with
  | started => rfl
  | noHandler _ hnone =>
      rw [hreg] at hnone
      cases hnone

/-- A worker keeps its lease token and its attempt counter, unless the move sets up a
claim. -/
theorem WorkerStep.keeps_claim {cfg : Config} {db db' : Jobs} {w w' : Worker}
    {act : WorkerAct} (h : WorkerStep cfg db w act db' w') :
    (w'.job.leaseToken = w.job.leaseToken ∧ w'.job.attempt = w.job.attempt) ∨
      ∃ now lease rand, act = .prepare now lease rand ∧ w.pc = .locked ∧
        w' = w.claiming now lease rand := by
  cases h with
  | prepared hpc => exact .inr ⟨_, _, _, rfl, hpc, rfl⟩
  | refused => rw [Worker.giveUp_job]; exact .inl ⟨rfl, rfl⟩
  | notLocked => rw [Worker.giveUp_job]; exact .inl ⟨rfl, rfl⟩
  | noHandler =>
      rcases w.failed_cases cfg _ _ with heq | heq <;> rw [heq] <;> exact .inl ⟨rfl, rfl⟩
  | failed =>
      rcases w.failed_cases cfg _ _ with heq | heq <;> rw [heq] <;> exact .inl ⟨rfl, rfl⟩
  | @written _ p => cases p <;> exact .inl ⟨rfl, rfl⟩
  | _ => exact .inl ⟨rfl, rfl⟩

/-! ### The rows of the table -/

/-- What a move of a worker does to a row. -/
def workerEdit (w : Worker) (act : WorkerAct) (r : Row) : Row :=
  match act, w.pc with
  | .write now, .write _ => editWhere (updateMatches w.job) (updateEdit now w.job) r
  | .renew now dbNow lease, _ =>
    if w.job.leaseToken = "" then r
    else editWhere (holdsClaim w.job) (renewEdit now dbNow (effectiveLease lease)) r
  | .releaseClaim dbNow, .release reason =>
    editWhere (holdsClaim w.job) (releaseEdit dbNow reason) r
  | _, _ => r

theorem workerEdit_write {w : Worker} {p : Phase} (h : w.pc = .write p) (now : Time) :
    workerEdit w (.write now) = editWhere (updateMatches w.job) (updateEdit now w.job) := by
  funext r
  simp only [workerEdit, h]

theorem workerEdit_releaseClaim {w : Worker} {reason : String} (h : w.pc = .release reason)
    (dbNow : Timestamp) :
    workerEdit w (.releaseClaim dbNow) =
      editWhere (holdsClaim w.job) (releaseEdit dbNow reason) := by
  funext r
  simp only [workerEdit, h]

/-- `RenewLease`, row by row. -/
theorem find?_renewLease (now : Time) (dbNow : Timestamp) (lease : Duration) (job : Job)
    (db : Jobs) (k : String) :
    (renewLease now dbNow lease job db).1.find? k =
      (db.find? k).map fun r =>
        if job.leaseToken = "" then r
        else editWhere (holdsClaim job) (renewEdit now dbNow lease) r := by
  unfold renewLease
  split
  · simp
  · exact find?_execUpdate db _ _ k

/-- **The rows.** A move of a worker changes the rows one by one, as `workerEdit` says. -/
theorem WorkerStep.find? {cfg : Config} {db db' : Jobs} {w w' : Worker} {act : WorkerAct}
    (h : WorkerStep cfg db w act db' w') (k : String) :
    db'.find? k = (db.find? k).map (workerEdit w act) := by
  cases h with
  | written hpc => rw [workerEdit_write hpc]; exact find?_execUpdate _ _ _ _
  | notWritten hpc => rw [workerEdit_write hpc]; exact find?_execUpdate _ _ _ _
  | renewed => exact find?_renewLease _ _ _ _ _ _
  | notRenewed => exact find?_renewLease _ _ _ _ _ _
  | released hpc => rw [workerEdit_releaseClaim hpc]; exact find?_execUpdate _ _ _ _
  | _ => exact Option.map_id'.symm

end Conduit
