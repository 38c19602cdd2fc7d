import Conduit.Attempt

/-!
# Two Rules for Exhausted Attempts

When a handler returns an error, `jobWorker.shouldRetry` decides whether the job has attempts
left: by the task's own `MaxRetries`, or by the retry engine's `MaxAttempts` when the task has
none. When a worker dies, `RequeueExpiredRunning` decides the same in SQL, from two columns of
the row, and knows nothing of the engine. For a task without a limit of its own the two
disagree from attempt `MaxAttempts` on: an error ends the job, a crash puts it back, so a job
that crashes its worker is executed for ever.

## Main results

* `requeue_dead_iff`, `shouldRetry_eq_false_iff`: the two rules.
* `requeue_agrees_iff`: where they agree.
* `crashRound_of_exec`, `errorRound_of_exec`: a round is what a run of the system does to the row.
* `crashesLeErrors_iff`: a job that always crashes its worker is executed no more often than
  one that always fails exactly when the task has a limit of its own or the engine has none.
-/

namespace Conduit

open KeyedTable Transition

/-! ### The rules -/

/-- The rule of `RequeueExpiredRunning`. -/
theorem requeue_dead_iff (dbNow : Timestamp) (r : Row) :
    ((requeueEdit dbNow).apply r).state = .dead ↔
      0 < r.taskMaxRetries ∧ r.taskMaxRetries ≤ r.attempt := by
  have hexhausted : attemptsExhausted r = true ↔
      0 < r.taskMaxRetries ∧ r.taskMaxRetries ≤ r.attempt := by
    simp [attemptsExhausted]
  rw [← hexhausted]
  cases h : attemptsExhausted r <;> simp [requeueEdit, h]

/-- The rule of `shouldRetry`, for an error that is not `ErrNoRetry`. -/
theorem shouldRetry_eq_false_iff {cfg : Config} {job : Job} {err : RunError}
    (htransient : err.noRetry = false) :
    cfg.shouldRetry job err = false ↔
      if 0 < job.task.maxRetries then job.task.maxRetries ≤ job.attempt
      else 0 < cfg.maxAttempts ∧ cfg.maxAttempts ≤ job.attempt := by
  unfold Config.shouldRetry Config.engineShouldRetry
  split <;> simp [htransient]

/-- The task has a limit of its own, or the engine has none, or the attempt is below the
engine's. -/
def ruledAlike (cfg : Config) (maxRetries attempt : ℤ) : Bool :=
  0 < maxRetries ∨ cfg.maxAttempts ≤ 0 ∨ attempt < cfg.maxAttempts

/-- The two rules side by side. -/
theorem rules_iff (cfg : Config) (maxRetries attempt : ℤ) :
    ((0 < maxRetries ∧ maxRetries ≤ attempt ↔
        if 0 < maxRetries then maxRetries ≤ attempt
        else 0 < cfg.maxAttempts ∧ cfg.maxAttempts ≤ attempt) ↔
      ruledAlike cfg maxRetries attempt = true) := by
  simp only [ruledAlike, decide_eq_true_eq]
  split
  · rename_i hlimit
    simp [hlimit]
  · rename_i hlimit
    omega

/-- `RequeueExpiredRunning` edits a row it selects. -/
theorem find?_requeue_of_mem {t : Jobs} {dbNow : Timestamp} {limit : ℤ} {locked : List String}
    {r : Row} (hfind : t.find? r.id = some r) (hlimit : 0 < limit)
    (hsel : r.id ∈ expiredIds dbNow limit locked t) :
    (requeueExpiredRunning dbNow limit locked t).1.find? r.id =
      some ((requeueEdit dbNow).apply r) := by
  rw [find?_requeueExpiredRunning, hfind, Option.map_some, if_neg (not_le.mpr hlimit)]
  exact congrArg some (editWhere_of_true _ (decide_eq_true hsel))

/-- **The two rules** agree on a row that lease recovery selects exactly when the task has a
limit of its own, the engine has none, or the attempt is below the engine's. -/
theorem requeue_agrees_iff {cfg : Config} {t : Jobs} {dbNow : Timestamp} {limit : ℤ}
    {locked : List String} {r : Row} {err : RunError} (hfind : t.find? r.id = some r)
    (hlimit : 0 < limit) (hsel : r.id ∈ expiredIds dbNow limit locked t)
    (htransient : err.noRetry = false) :
    ((((requeueExpiredRunning dbNow limit locked t).1.find? r.id).map Row.state = some .dead ↔
        cfg.shouldRetry r.toJob err = false) ↔
      ruledAlike cfg r.taskMaxRetries r.attempt = true) := by
  rw [find?_requeue_of_mem hfind hlimit hsel, Option.map_some, Option.some_inj,
    requeue_dead_iff, shouldRetry_eq_false_iff htransient]
  exact rules_iff cfg r.taskMaxRetries r.attempt

/-! ### Rounds of claim, execution and its end -/

/-- One round in the life of a row that is claimed and whose worker then crashes in the
handler: the lease expires and the row is requeued. -/
def crashRound (call : ClaimCall) (dbNow : Timestamp) (r : Row) : Row :=
  (requeueEdit dbNow).apply ((claimEdit call).apply r)

/-- What a worker with copy `w` writes when its handler returns an error: one write for the
dead letter, two for a retry. -/
def writeFailure (cfg : Config) (err : RunError) (now : Time) (delay : Duration) (w : Worker)
    (r : Row) : Row :=
  let failed := w.failed cfg err (now + delay)
  let r' := (updateEdit now failed.job).apply r
  match failed.pc with
  | .read (.fail nextRun) => (updateEdit now (failed.recorded (.fail nextRun)).job).apply r'
  | _ => r'

/-- One round in the life of a row that is claimed and whose handler then returns an error. -/
def errorRound (cfg : Config) (call : ClaimCall) (err : RunError) (now : Time)
    (delay : Duration) (r : Row) : Row :=
  writeFailure cfg err now delay ⟨.executing, ((claimEdit call).apply r).toJob, true⟩
    ((claimEdit call).apply r)

/-- The number of rounds that take place: a row has to be `PENDING` to be claimed. -/
def roundsRun : List (Row → Row) → Row → ℕ
  | [], _ => 0
  | round :: rounds, r => if r.state = .pending then roundsRun rounds (round r) + 1 else 0

/-- A round that leaves the limit, counts the attempt, and puts the row back to `PENDING` unless
`spent` holds of the limit and the attempt. -/
structure CountsTo (spent : ℤ → ℤ → Prop) (round : Row → Row) : Prop where
  limit : ∀ r, (round r).taskMaxRetries = r.taskMaxRetries
  attempt : ∀ r, (round r).attempt = r.attempt + 1
  state : ∀ r, (round r).state = .pending ↔ ¬ spent r.taskMaxRetries (r.attempt + 1)

/-- Rounds that end in a crash follow the rule of `RequeueExpiredRunning`. -/
theorem crashRound_countsTo (call : ClaimCall) (dbNow : Timestamp) :
    CountsTo (fun limit attempt => 0 < limit ∧ limit ≤ attempt) (crashRound call dbNow) where
  limit _ := rfl
  attempt _ := rfl
  state r := by
    have hdead := requeue_dead_iff dbNow ((claimEdit call).apply r)
    have hstate : (crashRound call dbNow r).state = .pending ↔
        ¬ (crashRound call dbNow r).state = .dead := by
      simp only [crashRound, requeueEdit]
      split <;> simp
    rw [hstate]
    exact not_congr hdead

/-- Rounds that end in a transient error follow the rule of `shouldRetry`. -/
theorem errorRound_countsTo {cfg : Config} {err : RunError} (htransient : err.noRetry = false)
    (call : ClaimCall) (now : Time) (delay : Duration) :
    CountsTo (fun limit attempt => if 0 < limit then limit ≤ attempt
      else 0 < cfg.maxAttempts ∧ cfg.maxAttempts ≤ attempt)
      (errorRound cfg call err now delay) := by
  have hrule : ∀ r : Row, cfg.shouldRetry ((claimEdit call).apply r).toJob err = false ↔
      if 0 < r.taskMaxRetries then r.taskMaxRetries ≤ r.attempt + 1
      else 0 < cfg.maxAttempts ∧ cfg.maxAttempts ≤ r.attempt + 1 :=
    fun r => shouldRetry_eq_false_iff htransient
  constructor
  · intro r
    unfold errorRound writeFailure
    dsimp only
    split <;> rfl
  · intro r
    unfold errorRound writeFailure Worker.failed
    dsimp only
    split <;> split <;> rfl
  · intro r
    rw [← hrule r]
    cases hretry : cfg.shouldRetry ((claimEdit call).apply r).toJob err <;>
      simp [errorRound, writeFailure, Worker.failed, hretry, Worker.recorded, updateEdit]

section Rounds

variable {spent spent' : ℤ → ℤ → Prop} {rounds rounds' : List (Row → Row)} {r r' : Row}

/-- Two rows alike, in rounds under rules that agree on their limit, go through equally many
rounds. -/
theorem roundsRun_eq (hlen : rounds.length = rounds'.length)
    (hrounds : ∀ f ∈ rounds, CountsTo spent f) (hrounds' : ∀ f ∈ rounds', CountsTo spent' f)
    (hlimit : r'.taskMaxRetries = r.taskMaxRetries) (hattempt : r'.attempt = r.attempt)
    (hstate : r.state = .pending ↔ r'.state = .pending)
    (hspent : ∀ n, spent r.taskMaxRetries n ↔ spent' r.taskMaxRetries n) :
    roundsRun rounds r = roundsRun rounds' r' := by
  induction rounds generalizing rounds' r r' with
  | nil =>
      obtain rfl : rounds' = [] := List.length_eq_zero_iff.mp hlen.symm
      rfl
  | cons f fs ih =>
      cases rounds' with
      | nil => cases hlen
      | cons g gs =>
          have hf := hrounds f List.mem_cons_self
          have hg := hrounds' g List.mem_cons_self
          have hnext : roundsRun fs (f r) = roundsRun gs (g r') := by
            refine ih (Nat.succ.inj hlen) (fun x hx => hrounds x (List.mem_cons_of_mem _ hx))
              (fun x hx => hrounds' x (List.mem_cons_of_mem _ hx)) ?_ ?_ ?_ ?_
            · rw [hf.limit, hg.limit, hlimit]
            · rw [hf.attempt, hg.attempt, hattempt]
            · rw [hf.state, hg.state, hlimit, hattempt, hspent]
            · rw [hf.limit]
              exact hspent
          simp only [roundsRun, hstate, hnext]

/-- Under a rule that never ends the job all rounds take place. -/
theorem roundsRun_eq_length (hrounds : ∀ f ∈ rounds, CountsTo spent f)
    (hnever : ∀ n, ¬ spent r.taskMaxRetries n) (hpending : r.state = .pending) :
    roundsRun rounds r = rounds.length := by
  induction rounds generalizing r with
  | nil => rfl
  | cons f fs ih =>
      have hf := hrounds f List.mem_cons_self
      have hnever' : ∀ n, ¬ spent (f r).taskMaxRetries n := by
        rw [hf.limit]
        exact hnever
      have hnext := ih (fun x hx => hrounds x (List.mem_cons_of_mem _ hx)) hnever'
        ((hf.state r).mpr (hnever _))
      rw [roundsRun, if_pos hpending, hnext, List.length_cons]

/-- Under a rule that ends the job at attempt `bound`, no more rounds take place than attempts
are left. -/
theorem roundsRun_le {bound : ℤ} (hrounds : ∀ f ∈ rounds, CountsTo spent f)
    (hspent : ∀ n, bound ≤ n → spent r.taskMaxRetries n) (hlt : r.attempt < bound) :
    (roundsRun rounds r : ℤ) ≤ bound - r.attempt := by
  induction rounds generalizing r with
  | nil =>
      simp only [roundsRun]
      omega
  | cons f fs ih =>
      have hf := hrounds f List.mem_cons_self
      have hrest : (roundsRun fs (f r) : ℤ) ≤ bound - (r.attempt + 1) := by
        by_cases hlast : r.attempt + 1 < bound
        · rw [← hf.attempt]
          refine ih (fun x hx => hrounds x (List.mem_cons_of_mem _ hx)) ?_ ?_
          · rw [hf.limit]
            exact hspent
          · rw [hf.attempt]
            exact hlast
        · -- The job is over, so nothing claims it any more.
          have hdead : (f r).state ≠ .pending := by
            rw [Ne, hf.state, not_not]
            exact hspent _ (by omega)
          have hzero : roundsRun fs (f r) = 0 := by
            cases fs with
            | nil => rfl
            | cons g gs => rw [roundsRun, if_neg hdead]
          rw [hzero]
          omega
      unfold roundsRun
      split <;> omega

end Rounds

/-! ### The rounds as runs -/

/-- Slot `i` holds the worker, and the table the row. -/
structure InSlot (s : Sys) (i : ℕ) (w : Worker) (r : Row) : Prop where
  worker : s.workers i = w
  row : s.db.find? r.id = some r

section Runs

variable {cfg : Config} {s s' t : Sys} {i : ℕ} {w : Worker} {r : Row} {call : ClaimCall}

/-- A move of the worker, and what it does to the row. -/
theorem InSlot.move (hs : InSlot s i w r) {act : WorkerAct}
    (h : step cfg s (.worker i act) = some s') :
    ∃ db w', WorkerStep cfg s.db w act db w' ∧ InSlot s' i w' (workerEdit w act r) := by
  have hrow := step_find? h hs.row
  have hedit : rowAfter s (.worker i act) r = workerEdit w act r :=
    congrArg (workerEdit · act r) hs.worker
  rw [hedit] at hrow
  have hmove := step_worker_self h
  rw [hs.worker] at hmove
  exact ⟨s'.db, s'.workers i, hmove, rfl, find?_id hrow⟩

/-- An `UpdateJob` call on a row that has the token of the copy. -/
theorem InSlot.update {p : Phase} {job : Job} {renewing : Bool} {now : Time}
    (hs : InSlot s i ⟨.read p, job, renewing⟩ r) (hid : r.id = job.id)
    (htoken : r.leaseToken = some job.leaseToken)
    (h : exec (step cfg) s (workerActs i [.read, .write now]) = some t) :
    InSlot t i (Worker.recorded p ⟨.write p, job, renewing⟩) ((updateEdit now job).apply r) := by
  obtain ⟨u, hu, h⟩ := exec_cons_iff.mp h
  obtain ⟨v, hv, h⟩ := exec_cons_iff.mp h
  obtain rfl := Option.some.inj h
  have hmatch : updateMatches job r = true :=
    updateMatches_of_token (t := s.db) (hid ▸ hs.row) htoken
  obtain ⟨_, _, hread, hs₁⟩ := hs.move hu
  obtain ⟨_, _, hwrite, hs₂⟩ := hs₁.move hv
  cases hread with
  | checked hpc =>
      cases hpc
      rw [workerEdit_write rfl] at hs₂
      have hedit : editWhere (updateMatches job) (updateEdit now job) r =
          (updateEdit now job).apply r := editWhere_of_true _ hmatch
      rw [← hedit]
      cases hwrite with
      | written hpc =>
          cases hpc
          exact hs₂
      | notWritten _ herr =>
          refine absurd (execUpdate_of_match _ (fun _ => updateMatches_id) ?_ hmatch) herr
          exact hid ▸ hs₁.row
  | notChecked =>
      -- a write follows, so the test was passed
      cases hwrite with
      | written hpc => cases hpc
      | notWritten hpc => cases hpc

/-- The claim of a row, by a call whose copy is then submitted. -/
theorem inSlot_of_claimNext (hsel : selectDue call s.db = some r)
    (h : step cfg s (.claimNext i call) = some s') (hpc : (s'.workers i).pc = .claimed) :
    InSlot s' i ⟨.claimed, ((claimEdit call).apply r).toJob, false⟩ ((claimEdit call).apply r) := by
  have hrow := step_find? h (selectDue_spec hsel).1
  rw [rowAfter_claimNext hsel] at hrow
  refine ⟨?_, hrow⟩
  cases step_sound h with
  | claimed _ hsel' hscan =>
      obtain rfl := Option.some.inj (hsel.symm.trans hsel')
      obtain ⟨rfl, -⟩ := scanJob_eq_ok_iff.mp hscan
      exact Function.update_self _ _ _
  | claimLost hidle =>
      rw [hidle] at hpc
      cases hpc
  | nothingDue hidle =>
      rw [hidle] at hpc
      cases hpc

/-- A claimed copy that is run up to the lock. -/
theorem InSlot.toLock {job : Job} {now : Time} (hs : InSlot s i ⟨.claimed, job, false⟩ r)
    (h : exec (step cfg) s (workerActs i [.submit true, .begin, .checkDue now, .allow true]) =
      some t) :
    InSlot t i ⟨.locking, job, false⟩ r := by
  obtain ⟨s₁, h₁, h⟩ := exec_cons_iff.mp h
  obtain ⟨s₂, h₂, h⟩ := exec_cons_iff.mp h
  obtain ⟨s₃, h₃, h⟩ := exec_cons_iff.mp h
  obtain ⟨s₄, h₄, h⟩ := exec_cons_iff.mp h
  obtain rfl := Option.some.inj h
  obtain ⟨_, _, hmove, hs₁⟩ := hs.move h₁
  cases hmove
  obtain ⟨_, _, hmove, hs₂⟩ := hs₁.move h₂
  cases hmove
  obtain ⟨_, _, hmove, hs₃⟩ := hs₂.move h₃
  obtain ⟨_, _, hallow, hs₄⟩ := hs₃.move h₄
  cases hallow with
  | allowed hpc =>
      -- the breaker is asked, so the copy was due at once
      cases hmove with
      | due => exact hs₄
      | tooFar => cases hpc
      | slept => cases hpc

/-- A claimed copy that gets its lock, and whose handler is called. -/
theorem InSlot.start {job : Job} {renewing : Bool} (hs : InSlot s i ⟨.locking, job, renewing⟩ r)
    (hstate : job.state = .running) (htoken : job.leaseToken ≠ "")
    (h : exec (step cfg) s (workerActs i [.acquire true, .exec]) = some t)
    (hexec : (t.workers i).pc = .executing) : InSlot t i ⟨.executing, job, true⟩ r := by
  obtain ⟨u, hu, h⟩ := exec_cons_iff.mp h
  obtain ⟨v, hv, h⟩ := exec_cons_iff.mp h
  obtain rfl := Option.some.inj h
  obtain ⟨_, _, hlock, hs₁⟩ := hs.move hu
  cases hlock with
  | lockedUnclaimed _ hne => exact absurd hstate hne
  | lockedClaimed =>
      obtain ⟨_, _, hcall, hs₂⟩ := hs₁.move hv
      cases hcall with
      | started =>
          refine ⟨hs₂.worker.trans ?_, hs₂.row⟩
          exact congrArg (Worker.mk .executing job) (decide_eq_true ⟨hstate, htoken⟩)
      | noHandler =>
          rw [hs₂.worker] at hexec
          rcases Worker.failed_cases cfg _ _ _ with heq | heq <;> rw [heq] at hexec <;>
            cases hexec

/-- A row that is claimed, and its copy run up to the handler. -/
theorem inSlot_of_runClaimed (hsel : selectDue call s.db = some r) {now : Time}
    (h : exec (step cfg) s (.claimNext i call :: runClaimed i now) = some t)
    (hexec : (t.workers i).pc = .executing) :
    InSlot t i ⟨.executing, ((claimEdit call).apply r).toJob, true⟩ ((claimEdit call).apply r) := by
  obtain ⟨u, hu, hrun⟩ := exec_cons_iff.mp h
  obtain ⟨_, hsubmit, -⟩ := exec_cons_iff.mp hrun
  have hclaimed := inSlot_of_claimNext hsel hu (step_worker_self hsubmit).pc_of_submit
  have hparts : exec (step cfg) u
      (workerActs i [.submit true, .begin, .checkDue now, .allow true] ++
        workerActs i [.acquire true, .exec]) = some t := hrun
  obtain ⟨v, hv, hlast⟩ := exec_append_iff.mp hparts
  exact (hclaimed.toLock hv).start rfl (newLeaseToken_ne_empty call.rand) hlast hexec

/-- **A round that ends in a crash**: the row is claimed, its handler starts, the worker dies, and
lease recovery selects the row. -/
theorem crashRound_of_exec {u v : Sys} (hsel : selectDue call s.db = some r) {now : Time}
    (hrun : exec (step cfg) s (.claimNext i call :: runClaimed i now) = some u)
    (hexec : (u.workers i).pc = .executing) (hcrash : step cfg u (.worker i .crash) = some v)
    {dbNow : Timestamp} {limit : ℤ} {locked : List String}
    (hexpired : requeues r.id v (.requeue dbNow limit locked) = true)
    (hrequeue : step cfg v (.requeue dbNow limit locked) = some t) :
    t.db.find? r.id = some (crashRound call dbNow r) := by
  obtain ⟨_, _, -, hs⟩ := (inSlot_of_runClaimed hsel hrun hexec).move hcrash
  obtain rfl := Option.some.inj hrequeue
  rw [requeues, Bool.and_eq_true, decide_eq_true_eq, decide_eq_true_eq] at hexpired
  exact find?_requeue_of_mem hs.row hexpired.1 hexpired.2

/-- What a worker does when its handler returns an error. -/
def failureActs (retry : Bool) (err : RunError) (now : Time) (delay : Duration) :
    List WorkerAct :=
  .finish (.error err now delay) :: .read :: .write now ::
    if retry then [.read, .write now] else []

/-- **A round that ends in an error**: the row is claimed, its handler starts and returns an error,
and the worker writes what it makes of it. -/
theorem errorRound_of_exec {u : Sys} (hsel : selectDue call s.db = some r) {start now : Time}
    {err : RunError} {delay : Duration}
    (hrun : exec (step cfg) s (.claimNext i call :: runClaimed i start) = some u)
    (hexec : (u.workers i).pc = .executing)
    (hfail : exec (step cfg) u (workerActs i (failureActs
      (cfg.shouldRetry ((claimEdit call).apply r).toJob err) err now delay)) = some t) :
    t.db.find? r.id = some (errorRound cfg call err now delay r) := by
  obtain ⟨v, hv, hwrites⟩ := exec_cons_iff.mp hfail
  obtain ⟨_, _, hmove, hs⟩ := (inSlot_of_runClaimed hsel hrun hexec).move hv
  cases hmove with
  | failed =>
      cases hretry : cfg.shouldRetry ((claimEdit call).apply r).toJob err with
      | false =>
          rw [hretry] at hwrites
          simp only [Worker.failed, hretry, Bool.false_eq_true, if_false] at hs
          have hs' := hs.update rfl rfl hwrites
          simp only [errorRound, writeFailure, Worker.failed, hretry, Bool.false_eq_true, if_false]
          exact hs'.row
      | true =>
          rw [hretry] at hwrites
          have hboth : exec (step cfg) v (workerActs i [.read, .write now] ++
              workerActs i [.read, .write now]) = some t := hwrites
          obtain ⟨x, hx, hlast⟩ := exec_append_iff.mp hboth
          simp only [Worker.failed, hretry, if_true] at hs
          have hs' := (hs.update rfl rfl hx).update rfl ?_ hlast
          · simp only [errorRound, writeFailure, Worker.failed, hretry, if_true]
            exact hs'.row
          · exact nullableString_of_ne (newLeaseToken_ne_empty call.rand)

end Runs

/-! ### Crash loops and error loops -/

/-- What a round that ends in a crash depends on. -/
structure Crash where
  call : ClaimCall
  dbNow : Timestamp

/-- What a round that ends in an error depends on. -/
structure Failure where
  call : ClaimCall
  err : RunError
  now : Time
  delay : Duration

/-- The executions of a job whose every execution crashes its worker. -/
def crashes (rounds : List Crash) (r : Row) : ℕ :=
  roundsRun (rounds.map fun c => crashRound c.call c.dbNow) r

/-- The executions of a job whose every execution returns an error. -/
def errors (cfg : Config) (rounds : List Failure) (r : Row) : ℕ :=
  roundsRun (rounds.map fun f => errorRound cfg f.call f.err f.now f.delay) r

/-- Crashing its worker, the job is executed no more often than failing with transient
errors, in equally many rounds. -/
def CrashesLeErrors (cfg : Config) (r : Row) : Prop :=
  ∀ cs fs, cs.length = fs.length → (∀ f ∈ fs, f.err.noRetry = false) →
    crashes cs r ≤ errors cfg fs r

/-- **Crash loops.** A fresh job that always crashes its worker is executed no more often than
one that always fails exactly when the task has a limit of its own or the engine has none. -/
theorem crashesLeErrors_iff {cfg : Config} {job : Job} (hjob : FreshJob job) (now : Time) :
    CrashesLeErrors cfg (insertRow now job) ↔
      0 < job.task.maxRetries ∨ cfg.maxAttempts ≤ 0 := by
  have hcrash : ∀ cs : List Crash, ∀ f ∈ cs.map (fun c => crashRound c.call c.dbNow),
      CountsTo (fun limit attempt => 0 < limit ∧ limit ≤ attempt) f := by
    intro cs f hf
    obtain ⟨c, -, rfl⟩ := List.mem_map.mp hf
    exact crashRound_countsTo c.call c.dbNow
  have herror : ∀ fs : List Failure, (∀ f ∈ fs, f.err.noRetry = false) →
      ∀ f ∈ fs.map (fun f => errorRound cfg f.call f.err f.now f.delay),
        CountsTo (fun limit attempt => if 0 < limit then limit ≤ attempt
          else 0 < cfg.maxAttempts ∧ cfg.maxAttempts ≤ attempt) f := by
    intro fs htransient f hf
    obtain ⟨x, hx, rfl⟩ := List.mem_map.mp hf
    exact errorRound_countsTo (htransient x hx) x.call x.now x.delay
  have hattempt : (insertRow now job).attempt = 0 := hjob.attempt
  constructor
  · intro hle
    by_contra hcon
    rw [not_or, not_lt, not_le] at hcon
    obtain ⟨hlimit, hengine⟩ := hcon
    -- One round more than the engine allows.
    let call : ClaimCall := ⟨0, 0, 0, sampleRandom 0, []⟩
    let cs : List Crash := List.replicate (cfg.maxAttempts.toNat + 1) ⟨call, 0⟩
    let fs : List Failure :=
      List.replicate (cfg.maxAttempts.toNat + 1) ⟨call, ⟨"", false⟩, 0, 0⟩
    have htransient : ∀ f ∈ fs, f.err.noRetry = false := by
      intro f hf
      rw [List.eq_of_mem_replicate hf]
    have hall : crashes cs (insertRow now job) = cfg.maxAttempts.toNat + 1 := by
      rw [crashes, roundsRun_eq_length (hcrash cs) (fun n hn => absurd hn.1 (not_lt.mpr hlimit))
        hjob.state, List.length_map, List.length_replicate]
    have hbound : (errors cfg fs (insertRow now job) : ℤ) ≤ cfg.maxAttempts - 0 := by
      rw [← hattempt]
      refine roundsRun_le (herror fs htransient) ?_ (by rw [hattempt]; exact hengine)
      intro n hn
      have hnone : ¬ 0 < (insertRow now job).taskMaxRetries := not_lt.mpr hlimit
      rw [if_neg hnone]
      exact ⟨hengine, hn⟩
    have hcount := hle cs fs (by simp [cs, fs]) htransient
    omega
  · intro hlimit cs fs hlen htransient
    refine le_of_eq (roundsRun_eq (by simpa using hlen) (hcrash cs) (herror fs htransient)
      rfl rfl Iff.rfl ?_)
    intro n
    have hrules := rules_iff cfg (insertRow now job).taskMaxRetries n
    refine hrules.mpr ?_
    simp only [ruledAlike, decide_eq_true_eq]
    rcases hlimit with hlimit | hlimit
    · exact .inl hlimit
    · exact .inr (.inl hlimit)

/-- **The exhaustion rules** of lease recovery and of the worker. They agree on a row that
lease recovery selects exactly when the task has a limit of its own, the engine has none, or
the attempt is below the engine's; and a job that always crashes its worker is executed no
more often than one that always fails exactly in the first two cases. -/
theorem exhaustion_rules (cfg : Config) :
    (∀ t dbNow limit locked r err, t.find? r.id = some r → 0 < limit →
      r.id ∈ expiredIds dbNow limit locked t → err.noRetry = false →
      ((((requeueExpiredRunning dbNow limit locked t).1.find? r.id).map Row.state =
          some .dead ↔ cfg.shouldRetry r.toJob err = false) ↔
        ruledAlike cfg r.taskMaxRetries r.attempt = true)) ∧
    ∀ job now, FreshJob job → (CrashesLeErrors cfg (insertRow now job) ↔
      0 < job.task.maxRetries ∨ cfg.maxAttempts ≤ 0) := by
  constructor
  · intro t dbNow limit locked r err hfind hlimit hsel htransient
    exact requeue_agrees_iff hfind hlimit hsel htransient
  · exact fun job now hjob => crashesLeErrors_iff hjob now

/-- The sample job has a limit of its own: its lease expires at the first attempt, and it is put
back as the worker would have done. -/
theorem exhaustion_rules_sample :
    (∃ s r, exec (step ⟨.empty, 5⟩) Sys.init (enqueueSample ++ [claimSample 0 1 0]) = some s ∧
      s.db.find? sampleId = some r ∧
      (((requeueExpiredRunning (toTimestamp (400 * second)) 100 [] s.db).1.find? r.id).map
          Row.state = some .dead ↔
        Config.shouldRetry ⟨.empty, 5⟩ r.toJob ⟨"connection refused", false⟩ = false)) ∧
    CrashesLeErrors ⟨.empty, 5⟩
      (insertRow 0 (prepareJob (sampleRandom 0) 0 (requestJob sampleRequest))) := by
  constructor
  · obtain ⟨s, hs, hrow⟩ := (Option.any_eq_true _ _).mp
      (show (exec (step ⟨.empty, 5⟩) Sys.init (enqueueSample ++ [claimSample 0 1 0])).any
        (fun s => (s.db.find? sampleId).any fun r =>
          decide (r.id ∈ expiredIds (toTimestamp (400 * second)) 100 [] s.db) &&
          ruledAlike ⟨.empty, 5⟩ r.taskMaxRetries r.attempt) = true by decide +kernel)
    obtain ⟨r, hfind, hboth⟩ := (Option.any_eq_true _ _).mp hrow
    rw [Bool.and_eq_true, decide_eq_true_eq] at hboth
    exact ⟨s, r, hs, hfind, ((exhaustion_rules ⟨.empty, 5⟩).1 s.db _ 100 [] r _ (find?_id hfind)
      (by decide) hboth.1 rfl).mpr hboth.2⟩
  · exact ((exhaustion_rules ⟨.empty, 5⟩).2 _ 0 (prepareJob_requestJob _ _ _)).mpr
      (.inl (by decide))

/-- A request for a webhook call without a limit of its own. -/
def unlimitedRequest : EnqueueRequest :=
  { sampleRequest with task := { sampleRequest.task with maxRetries := 0 } }

/-- The unlimited job fails four times; at the fifth attempt its worker crashes. -/
def crashedFifth : List Action :=
  enqueueAndPublish unlimitedRequest ++ failOnce 0 1 (10 * second) ++ failOnce 1 2 (20 * second) ++
    failOnce 2 3 (30 * second) ++ failOnce 3 4 (40 * second) ++
    claimSample 4 5 (50 * second) :: runClaimed 4 (50 * second) ++ [.worker 4 .crash]

/-- With `MaxAttempts = 5` an error at the fifth attempt would have ended the job; lease
recovery puts it back. In six rounds the job is executed six times if it crashes its worker
and five times if it fails. -/
theorem exhaustion_rules_differ :
    (∃ s r, exec (step ⟨.empty, 5⟩) Sys.init crashedFifth = some s ∧
      s.db.find? sampleId = some r ∧ r.taskMaxRetries = 0 ∧ r.attempt = 5 ∧
      r.state = .running ∧
      ((requeueExpiredRunning (toTimestamp (400 * second)) 100 [] s.db).1.find? sampleId).map
        Row.state = some .pending ∧
      Config.shouldRetry ⟨.empty, 5⟩ r.toJob ⟨"connection refused", false⟩ = false) ∧
    crashes (List.replicate 6 ⟨⟨0, 0, 0, sampleRandom 1, []⟩, 0⟩)
      (insertRow 0 (prepareJob (sampleRandom 0) 0 (requestJob unlimitedRequest))) = 6 ∧
    errors ⟨.empty, 5⟩
      (List.replicate 6 ⟨⟨0, 0, 0, sampleRandom 1, []⟩, ⟨"connection refused", false⟩, 0, 0⟩)
      (insertRow 0 (prepareJob (sampleRandom 0) 0 (requestJob unlimitedRequest))) = 5 := by
  refine ⟨?_, by decide +kernel, by decide +kernel⟩
  obtain ⟨s, hs, hrow⟩ := (Option.any_eq_true _ _).mp
    (show (exec (step ⟨.empty, 5⟩) Sys.init crashedFifth).any
      (fun s => (s.db.find? sampleId).any fun r =>
        decide (r.taskMaxRetries = 0 ∧ r.attempt = 5 ∧ r.state = .running ∧
          ((requeueExpiredRunning (toTimestamp (400 * second)) 100 [] s.db).1.find?
            sampleId).map Row.state = some .pending ∧
          Config.shouldRetry ⟨.empty, 5⟩ r.toJob ⟨"connection refused", false⟩ = false)) =
        true by decide +kernel)
  obtain ⟨r, hfind, hall⟩ := (Option.any_eq_true _ _).mp hrow
  exact ⟨s, r, hs, hfind, of_decide_eq_true hall⟩

end Conduit
