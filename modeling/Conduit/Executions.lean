import Mathlib.Data.Int.Interval
import Conduit.Attempt

/-!
# The Retry Budget

A job with `MaxRetries = M > 0` that only the reconciler delivers. Each `ClaimNextJob` gives
its copy the next attempt number, so the attempt numbers of the handler executions are
pairwise distinct. Those below `M` are few; the work is in the others. A claim released at
attempt `M` or later puts the row back to `PENDING`, and the next claim has a higher number
still. But releasing spends no execution, a retry is only scheduled below `M`, and lease
recovery moves an exhausted row to `DEAD`: so among the claims numbered `M` or more only the
last one can still execute, or has executed.

## Main results

* `mem_handlerStarts_iff`: what is counted as an execution is that a worker enters a handler.
* `WorkerStep.waiting`: a claimed copy reaches its handler once, with the number of its claim.
* `ledgerOk_of_exec`: the attempt numbers that have been spent, in every run that delivers no
  Kafka copy of the job.
* `length_executions_le`: such a run executes the handler at most `M` times.
-/

namespace Conduit

open KeyedTable Transition

/-! ### Handler executions -/

/-- The attempt number of the copy of job `k` whose handler the action starts. -/
def handlerStarts (k : String) (s : Sys) : Action → List ℤ
  | .worker i .exec =>
    if (s.workers i).job.id = k ∧ handlerRegistered (s.workers i).job.task.name = true then
      [(s.workers i).job.attempt]
    else []
  | _ => []

/-- The actions that start a handler. -/
theorem mem_handlerStarts {k : String} {s : Sys} {a : Action} {n : ℤ} :
    n ∈ handlerStarts k s a ↔ ∃ i, a = .worker i .exec ∧ (s.workers i).job.id = k ∧
      handlerRegistered (s.workers i).job.task.name = true ∧ (s.workers i).job.attempt = n := by
  constructor
  · intro hn
    unfold handlerStarts at hn
    split at hn
    · rename_i i
      split at hn
      · rename_i hcopy
        exact ⟨i, rfl, hcopy.1, hcopy.2, (List.mem_singleton.mp hn).symm⟩
      · cases hn
    · cases hn
  · rintro ⟨i, rfl, hid, hreg, rfl⟩
    rw [handlerStarts, if_pos ⟨hid, hreg⟩]
    exact List.mem_singleton.mpr rfl

/-- **Executions.** A step starts a handler of job `k` exactly when a worker that has a copy of the
job, of the number, enters its handler. -/
theorem mem_handlerStarts_iff {cfg : Config} {k : String} {s s' : Sys} {a : Action} {n : ℤ}
    (h : step cfg s a = some s') :
    n ∈ handlerStarts k s a ↔ ∃ i, (s.workers i).pc ≠ .executing ∧
      (s'.workers i).pc = .executing ∧ (s.workers i).job.id = k ∧
      (s.workers i).job.attempt = n := by
  rw [mem_handlerStarts]
  constructor
  · rintro ⟨i, rfl, hid, hreg, hn⟩
    have hmove := step_worker_self h
    exact ⟨i, by rw [hmove.ready_of_exec]; simp, hmove.pc_of_exec hreg, hid, hn⟩
  · rintro ⟨i, hbefore, hexec, hid, hn⟩
    refine ⟨i, ?_⟩
    cases step_workerChange h i with
    | same heq =>
        rw [heq] at hexec
        exact absurd hexec hbefore
    | claimed _ _ heq =>
        rw [heq] at hexec
        cases hexec
    | delivered _ _ heq =>
        rw [heq] at hexec
        cases hexec
    | moved hmove =>
        rcases hmove.executing hexec with hold | ⟨rfl, -, hreg⟩
        · exact absurd hold hbefore
        · exact ⟨rfl, hid, hreg, hn⟩

/-- The handler executions of job `k` in a run, by attempt number. -/
def executions (cfg : Config) (k : String) (as : List Action) : List ℤ :=
  logSteps (step cfg) (handlerStarts k) Sys.init as

/-- The action delivers a Kafka copy of job `k`. -/
def delivers (k : String) (s : Sys) : Action → Bool
  | .deliver _ j => s.kafka[j]?.any fun job => job.id = k
  | _ => false

/-! ### Copies that the reconciler claimed -/

/-- The program counters of a claimed copy whose handler has not been called, the release of
its claim included. -/
def Pc.waiting : Pc → Bool
  | .claimed | .queued | .entry | .sleeping | .breaker | .locking | .ready | .release _ => true
  | _ => false

/-- The program counters at which an unclaimed copy is claimed. -/
def Pc.claiming : Pc → Bool
  | .locked | .read .claim | .write .claim => true
  | _ => false

/-- The moves that end the wait: the call of the handler and the release of the claim. -/
def WorkerAct.endsWait : WorkerAct → Bool
  | .exec | .releaseClaim _ => true
  | _ => false

/-- A copy that `ClaimNextJob` claimed: it is `RUNNING` as long as it waits, so `Run` never
claims it again. -/
structure Worker.FromReconciler (w : Worker) : Prop where
  running : w.pc.waiting = true → w.job.state = .running
  notClaiming : w.pc.claiming = false

section Moves

variable {cfg : Config} {db db' : Jobs} {w w' : Worker} {act : WorkerAct}

/-- A worker that neither waits nor claims. -/
theorem Worker.FromReconciler.of_pc (hwait : w.pc.waiting = false)
    (hclaim : w.pc.claiming = false) : w.FromReconciler :=
  ⟨fun h => absurd h (by simp [hwait]), hclaim⟩

/-- A worker that gives up is not claiming, and waits at most for its release. -/
theorem Worker.FromReconciler.giveUp (hw : w.job.state = .running) (reason : String) :
    (w.giveUp reason).FromReconciler := by
  rcases w.giveUp_cases reason with heq | ⟨heq, -⟩ <;> rw [heq]
  · exact .of_pc rfl rfl
  · exact ⟨fun _ => hw, rfl⟩

/-- Recording a failed execution, a worker neither waits nor claims. -/
theorem Worker.failed_pc (cfg : Config) (err : RunError) (nextRun : Time) (w : Worker) :
    (w.failed cfg err nextRun).pc.waiting = false ∧
      (w.failed cfg err nextRun).pc.claiming = false := by
  rcases w.failed_cases cfg err nextRun with heq | heq <;> rw [heq] <;> exact ⟨rfl, rfl⟩

/-- A worker that has recorded a phase other than the claim neither waits nor claims. -/
theorem Worker.recorded_pc {p : Phase} (hp : p ≠ .claim) (w : Worker) :
    (w.recorded p).pc.waiting = false ∧ (w.recorded p).pc.claiming = false := by
  cases p with
  | claim => exact absurd rfl hp
  | complete => exact ⟨rfl, rfl⟩
  | fail => exact ⟨rfl, rfl⟩
  | reschedule => exact ⟨rfl, rfl⟩
  | deadLetter => exact ⟨rfl, rfl⟩

/-- A claimed copy stays one. -/
theorem WorkerStep.fromReconciler (h : WorkerStep cfg db w act db' w')
    (hw : w.FromReconciler) : w'.FromReconciler := by
  obtain ⟨hrun, hclaim⟩ := hw
  cases h with
  | submitted hpc => exact ⟨fun _ => hrun (by rw [hpc]; rfl), rfl⟩
  | rejected hpc => exact ⟨fun _ => hrun (by rw [hpc]; rfl), rfl⟩
  | begun hpc => exact ⟨fun _ => hrun (by rw [hpc]; rfl), rfl⟩
  | due hpc => exact ⟨fun _ => hrun (by rw [hpc]; rfl), rfl⟩
  | slept hpc => exact ⟨fun _ => hrun (by rw [hpc]; rfl), rfl⟩
  | woke hpc => exact ⟨fun _ => hrun (by rw [hpc]; rfl), rfl⟩
  | allowed hpc => exact ⟨fun _ => hrun (by rw [hpc]; rfl), rfl⟩
  | refused hpc => exact .giveUp (hrun (by rw [hpc]; rfl)) _
  | lockedClaimed hpc => exact ⟨fun _ => hrun (by rw [hpc]; rfl), rfl⟩
  | lockedUnclaimed hpc hstate => exact absurd (hrun (by rw [hpc]; rfl)) hstate
  | notLocked hpc => exact .giveUp (hrun (by rw [hpc]; rfl)) _
  | prepared hpc => rw [hpc] at hclaim; cases hclaim
  | @checked p hpc =>
      rw [hpc] at hclaim
      refine .of_pc rfl ?_
      cases p <;> first | rfl | cases hclaim
  | @written _ p hpc =>
      have hp : p ≠ .claim := by
        rintro rfl
        rw [hpc] at hclaim
        cases hclaim
      exact .of_pc (w.recorded_pc hp).1 (w.recorded_pc hp).2
  | noHandler => exact .of_pc (w.failed_pc cfg _ _).1 (w.failed_pc cfg _ _).2
  | failed => exact .of_pc (w.failed_pc cfg _ _).1 (w.failed_pc cfg _ _).2
  | renewed => exact ⟨hrun, hclaim⟩
  | notRenewed => exact ⟨hrun, hclaim⟩
  | renewFailed => exact ⟨hrun, hclaim⟩
  | _ => exact .of_pc rfl rfl

/-- **One way in.** A claimed copy that waits has waited all the time; the move did not call
the handler, nor release the claim. -/
theorem WorkerStep.waiting (h : WorkerStep cfg db w act db' w') (hw : w.FromReconciler)
    (hwait : w'.pc.waiting = true) :
    w.pc.waiting = true ∧ act.endsWait = false := by
  cases h with
  | submitted hpc => rw [hpc]; exact ⟨rfl, rfl⟩
  | rejected hpc => rw [hpc]; exact ⟨rfl, rfl⟩
  | begun hpc => rw [hpc]; exact ⟨rfl, rfl⟩
  | due hpc => rw [hpc]; exact ⟨rfl, rfl⟩
  | slept hpc => rw [hpc]; exact ⟨rfl, rfl⟩
  | woke hpc => rw [hpc]; exact ⟨rfl, rfl⟩
  | allowed hpc => rw [hpc]; exact ⟨rfl, rfl⟩
  | refused hpc => rw [hpc]; exact ⟨rfl, rfl⟩
  | lockedClaimed hpc => rw [hpc]; exact ⟨rfl, rfl⟩
  | notLocked hpc => rw [hpc]; exact ⟨rfl, rfl⟩
  | renewed => exact ⟨hwait, rfl⟩
  | notRenewed => exact ⟨hwait, rfl⟩
  | renewFailed => exact ⟨hwait, rfl⟩
  | @written _ p hpc =>
      have hp : p ≠ .claim := by
        rintro rfl
        have hclaim := hw.notClaiming
        rw [hpc] at hclaim
        cases hclaim
      exact absurd hwait (by simp [(w.recorded_pc hp).1])
  | noHandler => exact absurd hwait (by simp [(w.failed_pc cfg _ _).1])
  | failed => exact absurd hwait (by simp [(w.failed_pc cfg _ _).1])
  | _ => cases hwait

/-- A claimed copy keeps its lease token and its attempt number. -/
theorem Worker.FromReconciler.keeps_claim (hw : w.FromReconciler)
    (h : WorkerStep cfg db w act db' w') :
    w'.job.leaseToken = w.job.leaseToken ∧ w'.job.attempt = w.job.attempt := by
  rcases h.keeps_claim with hkept | ⟨now, lease, rand, -, hpc, -⟩
  · exact hkept
  · have hclaim := hw.notClaiming
    rw [hpc] at hclaim
    cases hclaim

/-- A worker that is at work after a move was so before. -/
theorem WorkerStep.ne_idle (h : WorkerStep cfg db w act db' w') (hw : w'.pc ≠ .idle) :
    w.pc ≠ .idle := by
  intro hidle
  cases h with
  | renewed => exact hw hidle
  | notRenewed => exact hw hidle
  | renewFailed => exact hw hidle
  | crashed hne => exact hne hidle
  | _ => simp_all

/-- The phases of `scheduleRetry`. -/
def Phase.retries : Phase → Bool
  | .fail _ | .reschedule => true
  | _ => false

/-- The two writes of `scheduleRetry` are made below the task's own limit, if it has one. -/
def Worker.RetryOk (w : Worker) : Prop :=
  ∀ p, w.pc = .read p ∨ w.pc = .write p → p.retries = true → 0 < w.job.task.maxRetries →
    w.job.attempt < w.job.task.maxRetries

/-- Below a task's own limit means below it. -/
theorem lt_of_shouldRetry {job : Job} {err : RunError} (h : cfg.shouldRetry job err = true)
    (hpos : 0 < job.task.maxRetries) : job.attempt < job.task.maxRetries := by
  rw [Config.shouldRetry, if_pos hpos, Bool.and_eq_true] at h
  exact of_decide_eq_true h.2

/-- A failed execution is retried only below the limit. -/
theorem Worker.retryOk_failed (cfg : Config) (err : RunError) (nextRun : Time) (w : Worker) :
    (w.failed cfg err nextRun).RetryOk := by
  intro p hpc hp hpos
  unfold Worker.failed at hpc hpos ⊢
  split at hpc
  · rename_i hretry
    simp only [if_pos hretry] at hpos ⊢
    exact lt_of_shouldRetry hretry hpos
  · rcases hpc with hpc | hpc <;> cases hpc
    cases hp

/-- Every move keeps the retries below the limit. -/
theorem WorkerStep.retryOk (h : WorkerStep cfg db w act db' w') (hw : w.RetryOk) :
    w'.RetryOk := by
  have hother : ∀ {x : Worker}, (∀ p, x.pc ≠ .read p ∧ x.pc ≠ .write p) → x.RetryOk := by
    intro x hx p hpc
    rcases hpc with hpc | hpc
    · exact absurd hpc (hx p).1
    · exact absurd hpc (hx p).2
  cases h with
  | @checked p hpc =>
      rintro q (hq | hq) hp
      · cases hq
      · cases hq
        exact hw p (.inl hpc) hp
  | @written _ p hpc =>
      intro q hq hp
      cases p with
      | fail nextRun => exact hw _ (.inr hpc) rfl
      | claim => rcases hq with hq | hq <;> cases hq
      | complete => rcases hq with hq | hq <;> cases hq
      | reschedule => rcases hq with hq | hq <;> cases hq
      | deadLetter => rcases hq with hq | hq <;> cases hq
  | noHandler => exact w.retryOk_failed cfg _ _
  | failed => exact w.retryOk_failed cfg _ _
  | renewed => exact hw
  | notRenewed => exact hw
  | renewFailed => exact hw
  | refused =>
      rcases w.giveUp_cases "circuit open" with heq | ⟨heq, -⟩ <;> rw [heq] <;>
        exact hother fun p => by simp [Worker.goto]
  | notLocked =>
      rcases w.giveUp_cases "could not acquire execution lock" with heq | ⟨heq, -⟩ <;>
        rw [heq] <;> exact hother fun p => by simp [Worker.goto]
  | succeeded | prepared =>
      rintro q (hq | hq) hp <;> cases hq
      cases hp
  | _ => exact hother fun p => by simp [Worker.goto, Worker.claimHeld, Worker.stopped]

end Moves

/-- In every run all retries are scheduled below the limit. -/
theorem retryOk_of_exec {cfg : Config} {as : List Action} {s : Sys}
    (h : exec (step cfg) Sys.init as = some s) (i : ℕ) : (s.workers i).RetryOk := by
  refine exec_invariant (I := fun s => ∀ i, (s.workers i).RetryOk) ?_ ?_ h i
  · intro s a s' hold hstep i
    cases step_workerChange hstep i with
    | same heq => rw [heq]; exact hold i
    | claimed _ _ heq =>
        rw [heq]
        rintro p (hpc | hpc) <;> cases hpc
    | delivered _ _ heq =>
        rw [heq]
        rintro p (hpc | hpc) <;> cases hpc
    | moved hmove => exact hmove.retryOk (hold i)
  · rintro i p (hpc | hpc) <;> cases hpc

/-! ### Copies of a job that is never delivered -/

/-- The worker in slot `i` has a copy of job `k`. -/
def Sys.Copies (s : Sys) (k : String) (i : ℕ) : Prop :=
  (s.workers i).pc ≠ .idle ∧ (s.workers i).job.id = k

/-- What the copies of job `k` have in common when all of them come from the reconciler. -/
structure CopiesOk (k : String) (s : Sys) : Prop where
  claimed : ∀ i, s.Copies k i → (s.workers i).FromReconciler
  row : ∀ i, s.Copies k i →
    ∃ r, s.db.find? k = some r ∧ (s.workers i).job.task.maxRetries = r.taskMaxRetries

section Step

variable {cfg : Config} {s s' : Sys} {a : Action} {k : String}

/-- The limit in the row never changes. -/
theorem RowChange.taskMaxRetries {r r' : Row} (h : RowChange s r a r') :
    r'.taskMaxRetries = r.taskMaxRetries := by
  cases h <;> rfl

/-- A row stays in the table, with its limit. -/
theorem step_taskMaxRetries (h : step cfg s a = some s') {r : Row}
    (hfind : s.db.find? k = some r) :
    ∃ r', s'.db.find? k = some r' ∧ r'.taskMaxRetries = r.taskMaxRetries := by
  obtain ⟨r', hfind', hchange⟩ := step_rowChange h hfind
  exact ⟨r', hfind', hchange.taskMaxRetries⟩

/-- A delivery puts the record into the slot. -/
theorem step_deliver {i j : ℕ} (h : step cfg s (.deliver i j) = some s') :
    ∃ job, s.kafka[j]? = some job ∧ s'.workers i = ⟨.queued, viaJson job, false⟩ := by
  cases step_sound h with
  | deliver _ hjob => exact ⟨_, hjob, Function.update_self _ _ _⟩

/-- The copy in a slot after a step, if it is of job `k`: `ClaimNextJob` has just claimed the
row, or the copy was there and the slot's worker moved on or stood still. -/
theorem copies_of_step (h : step cfg s a = some s') (hnot : delivers k s a = false) {i : ℕ}
    (hcopy : s'.Copies k i) :
    (∃ call r, a = .claimNext i call ∧ s.db.find? k = some r ∧
        selectDue call s.db = some r ∧
        s'.workers i = ⟨.claimed, ((claimEdit call).apply r).toJob, false⟩) ∨
      s.Copies k i ∧ (s'.workers i = s.workers i ∧ (∀ act, a ≠ .worker i act) ∨
        ∃ act, a = .worker i act ∧
          WorkerStep cfg s.db (s.workers i) act s'.db (s'.workers i)) := by
  obtain ⟨hidle, hid⟩ := hcopy
  cases step_workerChange h i with
  | same heq hother =>
      rw [heq] at hidle hid
      exact .inr ⟨⟨hidle, hid⟩, .inl ⟨heq, hother⟩⟩
  | @claimed call r _ hsel heq =>
      rw [heq] at hid
      obtain rfl : r.id = k := hid
      exact .inl ⟨call, r, rfl, (selectDue_spec hsel).1, hsel, heq⟩
  | delivered =>
      obtain ⟨job, hjob, heq⟩ := step_deliver h
      rw [heq] at hid
      have hjobId : job.id = k := hid
      simp [delivers, hjob, hjobId] at hnot
  | @moved act hmove =>
      rw [hmove.job_id] at hid
      exact .inr ⟨⟨hmove.ne_idle hidle, hid⟩, .inr ⟨act, rfl, hmove⟩⟩

/-- Every step that delivers no Kafka copy of the job keeps the copies in order. -/
theorem step_copiesOk (hok : CopiesOk k s) (h : step cfg s a = some s')
    (hnot : delivers k s a = false) : CopiesOk k s' := by
  constructor
  · intro i hcopy
    rcases copies_of_step h hnot hcopy with
      ⟨call, r, -, -, -, heq⟩ | ⟨hold, ⟨heq, -⟩ | ⟨act, -, hmove⟩⟩
    · rw [heq]
      exact ⟨fun _ => rfl, rfl⟩
    · rw [heq]
      exact hok.claimed i hold
    · exact hmove.fromReconciler (hok.claimed i hold)
  · intro i hcopy
    rcases copies_of_step h hnot hcopy with
      ⟨call, r, -, hfind, -, heq⟩ | ⟨hold, hmove⟩
    · obtain ⟨r', hfind', hlimit⟩ := step_taskMaxRetries h hfind
      refine ⟨r', hfind', ?_⟩
      rw [heq, hlimit]
      rfl
    · obtain ⟨r, hfind, hcopyLimit⟩ := hok.row i hold
      obtain ⟨r', hfind', hlimit⟩ := step_taskMaxRetries h hfind
      refine ⟨r', hfind', ?_⟩
      rw [hlimit, ← hcopyLimit]
      rcases hmove with ⟨heq, -⟩ | ⟨act, -, hmove⟩
      · rw [heq]
      · rw [hmove.job_task]

/-! ### The row -/

/-- A worker that releases its claim, and finds it, has the attempt number of the row. -/
theorem holder_of_release (hinv : s.Inv) (hholders : s.HoldersOk) {r : Row}
    (hfind : s.db.find? k = some r) {i : ℕ} {reason : String}
    (hpc : (s.workers i).pc = .release reason)
    (hmatch : holdsClaim (s.workers i).job r = true) :
    (s.workers i).job.attempt = r.attempt := by
  simp only [holdsClaim, decide_eq_true_eq] at hmatch
  have hjob : (s.workers i).JobOk := hinv.workers i
  rw [Worker.JobOk, hpc] at hjob
  exact (hholders i k r hjob.leaseToken hfind hmatch.2.2).symm

/-- A worker that writes, and finds its row, has the attempt number of the row. -/
theorem holder_of_write (hinv : s.Inv) (hholders : s.HoldersOk) (hok : CopiesOk k s)
    {r : Row} (hfind : s.db.find? k = some r) {i : ℕ} {p : Phase}
    (hpc : (s.workers i).pc = .write p) (hmatch : updateMatches (s.workers i).job r = true) :
    (s.workers i).job.attempt = r.attempt := by
  have hjob := hinv.phase hpc
  rcases token_of_updateMatches hjob hmatch with htoken | ⟨rfl, -⟩
  · exact (hholders i k r hjob.leaseToken_ne hfind htoken).symm
  · have hid : (s.workers i).job.id = k := (updateMatches_id hmatch).symm.trans (key_of_find? hfind)
    have hclaim := (hok.claimed i ⟨by simp [hpc], hid⟩).notClaiming
    rw [hpc] at hclaim
    cases hclaim

/-- The attempt counter of the row: only `ClaimNextJob` changes it. -/
theorem attempt_of_change (hinv : s.Inv) (hholders : s.HoldersOk) (hok : CopiesOk k s)
    {r r' : Row} (hfind : s.db.find? k = some r) (h : RowChange s r a r') :
    r'.attempt = r.attempt ∨ ∃ i call, a = .claimNext i call ∧
      selectDue call s.db = some r ∧ r' = (claimEdit call).apply r := by
  cases h with
  | @claimed i call hsel => exact .inr ⟨i, call, rfl, hsel, rfl⟩
  | @updated i p now hpc hmatch =>
      exact .inl (holder_of_write hinv hholders hok hfind hpc hmatch)
  | _ => exact .inl rfl

/-- How the row becomes `PENDING`: it was, lease recovery found attempts left, a claim was
released, or a retry was scheduled. -/
theorem pending_of_change (hinv : s.Inv) {r r' : Row} (h : RowChange s r a r')
    (hpending : r'.state = .pending) :
    r.state = .pending ∨
      (∃ dbNow limit locked, a = .requeue dbNow limit locked ∧ attemptsExhausted r = false) ∨
      (∃ i dbNow reason, a = .worker i (.releaseClaim dbNow) ∧
        (s.workers i).pc = .release reason ∧ holdsClaim (s.workers i).job r = true) ∨
      ∃ i now, a = .worker i (.write now) ∧ (s.workers i).pc = .write .reschedule ∧
        updateMatches (s.workers i).job r = true := by
  cases h with
  | same => exact .inl hpending
  | cancelled => cases hpending
  | requeued =>
      cases hexhausted : attemptsExhausted r with
      | false => exact .inr (.inl ⟨_, _, _, rfl, rfl⟩)
      | true => simp [requeueEdit, hexhausted] at hpending
  | claimed => cases hpending
  | @updated i p now hpc hmatch =>
      refine .inr (.inr (.inr ⟨i, now, rfl, ?_, hmatch⟩))
      have hstate : p.state = .pending := (hinv.phase hpc).state_eq.symm.trans hpending
      cases p <;> first | exact hpc | cases hstate
  | renewed => exact .inl hpending
  | released hpc hmatch => exact .inr (.inr (.inl ⟨_, _, _, rfl, hpc, hmatch⟩))

end Step

/-! ### The ledger of attempt numbers -/

/-- The copy of job `k` in slot `i` waits for its handler under attempt number `n`. -/
def Sys.Waits (s : Sys) (k : String) (i : ℕ) (n : ℤ) : Prop :=
  (s.workers i).pc.waiting = true ∧ (s.workers i).job.id = k ∧ (s.workers i).job.attempt = n

/-- Attempt number `n` of job `k` has been executed, or may still be. -/
def Sys.Spends (s : Sys) (k : String) (log : List ℤ) (n : ℤ) : Prop :=
  n ∈ log ∨ ∃ i, s.Waits k i n

/-- A copy that waits is a copy. -/
theorem Sys.Waits.copies {s : Sys} {k : String} {i : ℕ} {n : ℤ} (h : s.Waits k i n) :
    s.Copies k i :=
  ⟨Pc.ne_idle rfl h.1, h.2.1⟩

/-- The attempt numbers of job `k`, with `log` the executed ones. -/
structure LedgerOk (k : String) (log : List ℤ) (s : Sys) : Prop where
  /-- Every execution has its own number. -/
  nodup : log.Nodup
  /-- The number of a waiting copy has not been executed. -/
  unstarted : ∀ i n, s.Waits k i n → n ∉ log
  /-- Waiting copies have different numbers. -/
  distinct : ∀ i j n, s.Waits k i n → s.Waits k j n → i = j
  /-- The counter of the row is the highest number; at or beyond the limit, only the number of
  the row can be spent, and only while the row is not up for another claim. -/
  spent : ∀ n, s.Spends k log n → ∃ r, s.db.find? k = some r ∧ 1 ≤ n ∧ n ≤ r.attempt ∧
    (0 < r.taskMaxRetries → r.taskMaxRetries ≤ n → n = r.attempt ∧ r.state ≠ .pending)

section Ledger

variable {cfg : Config} {s s' : Sys} {a : Action} {k : String} {log : List ℤ}

/-- A copy that waits after a step waited before it under the same number, and the step ended
no wait of its slot, or the step has claimed it. -/
theorem waits_of_step (hok : CopiesOk k s) (h : step cfg s a = some s')
    (hnot : delivers k s a = false) {i : ℕ} {n : ℤ} (hwait : s'.Waits k i n) :
    (s.Waits k i n ∧ ∀ act, a = .worker i act → act.endsWait = false) ∨
      ∃ call r, a = .claimNext i call ∧ s.db.find? k = some r ∧
        selectDue call s.db = some r ∧ n = r.attempt + 1 := by
  rcases copies_of_step h hnot hwait.copies with
    ⟨call, r, rfl, hfind, hsel, heq⟩ | ⟨hold, ⟨heq, hother⟩ | ⟨act, rfl, hmove⟩⟩
  · obtain ⟨-, -, hn⟩ := hwait
    rw [heq] at hn
    exact .inr ⟨call, r, rfl, hfind, hsel, hn.symm⟩
  · rw [Sys.Waits, heq] at hwait
    exact .inl ⟨hwait, fun act hact => absurd hact (hother act)⟩
  · obtain ⟨hpc, -, hn⟩ := hwait
    have hfrom := hok.claimed i hold
    obtain ⟨hpc', hact⟩ := hmove.waiting hfrom hpc
    rw [(hfrom.keeps_claim hmove).2] at hn
    refine .inl ⟨⟨hpc', hold.2, hn⟩, ?_⟩
    intro act' heq
    cases heq
    exact hact

/-- A step writes a number into the log only if it starts a waiting copy. -/
theorem waits_of_mem_handlerStarts (h : step cfg s a = some s') {n : ℤ}
    (hn : n ∈ handlerStarts k s a) : ∃ i, a = .worker i .exec ∧ s.Waits k i n := by
  obtain ⟨i, rfl, hid, -, hn⟩ := mem_handlerStarts.mp hn
  have hpc := (step_worker_self h).ready_of_exec
  exact ⟨i, rfl, by rw [hpc]; rfl, hid, hn⟩

/-- What a step can add to the spent numbers: the number of a claim. -/
theorem spends_of_step (hok : CopiesOk k s) (h : step cfg s a = some s')
    (hnot : delivers k s a = false) {n : ℤ}
    (hspend : s'.Spends k (log ++ handlerStarts k s a) n) :
    s.Spends k log n ∨ ∃ i call r, a = .claimNext i call ∧ s.db.find? k = some r ∧
      selectDue call s.db = some r ∧ n = r.attempt + 1 := by
  rcases hspend with hlog | ⟨i, hwait⟩
  · rcases List.mem_append.mp hlog with hold | hnew
    · exact .inl (.inl hold)
    · obtain ⟨i, -, hwait⟩ := waits_of_mem_handlerStarts h hnew
      exact .inl (.inr ⟨i, hwait⟩)
  · rcases waits_of_step hok h hnot hwait with ⟨hold, -⟩ | ⟨call, r, ha, hrest⟩
    · exact .inl (.inr ⟨i, hold⟩)
    · exact .inr ⟨i, call, r, ha, hrest⟩

/-- The number of a released claim is no longer spent. -/
theorem not_spends_of_release (hledger : LedgerOk k log s) (hok : CopiesOk k s)
    {i : ℕ} {dbNow : Timestamp} (h : step cfg s (.worker i (.releaseClaim dbNow)) = some s')
    {n : ℤ} (hwait : s.Waits k i n) :
    ¬ s'.Spends k (log ++ handlerStarts k s (.worker i (.releaseClaim dbNow))) n := by
  rintro (hlog | ⟨j, hj⟩)
  · change n ∈ log ++ [] at hlog
    rw [List.append_nil] at hlog
    exact hledger.unstarted i n hwait hlog
  · rcases waits_of_step hok h rfl hj with ⟨hold, hact⟩ | ⟨call, r, heq, -⟩
    · obtain rfl := hledger.distinct i j n hwait hold
      exact absurd (hact _ rfl) (by simp [WorkerAct.endsWait])
    · cases heq

/-- **The row goes up for another claim** only when no number at or beyond the limit is
spent. -/
theorem lt_of_pending (hinv : s.Inv) (hholders : s.HoldersOk) (hok : CopiesOk k s)
    (hretry : ∀ i, (s.workers i).RetryOk) (hledger : LedgerOk k log s)
    (h : step cfg s a = some s') {r r' : Row} (hfind : s.db.find? k = some r)
    (hchange : RowChange s r a r') (hpending : r'.state = .pending)
    (hpos : 0 < r.taskMaxRetries) {n : ℤ} (hold : s.Spends k log n)
    (hspend : s'.Spends k (log ++ handlerStarts k s a) n) : n < r.taskMaxRetries := by
  obtain ⟨x, hx, -, hle, hlimit⟩ := hledger.spent n hold
  rw [hfind] at hx
  obtain rfl := Option.some.inj hx
  by_contra hge
  obtain ⟨heq, hnotPending⟩ := hlimit hpos (not_lt.mp hge)
  rcases pending_of_change hinv hchange hpending with
    hstate | ⟨_, _, _, -, hexhausted⟩ | ⟨i, dbNow, reason, rfl, hpc, hmatch⟩ |
      ⟨i, now, rfl, hpc, hmatch⟩
  · exact hnotPending hstate
  · have hlt : r.attempt < r.taskMaxRetries := by
      simpa [attemptsExhausted, hpos] using hexhausted
    exact hge (heq ▸ hlt)
  · -- The holder releases its own number, which it has not executed.
    have hattempt := holder_of_release hinv hholders hfind hpc hmatch
    have hid : (s.workers i).job.id = k := (holdsClaim_id hmatch).symm.trans (key_of_find? hfind)
    have hwait : s.Waits k i n := ⟨by rw [hpc]; rfl, hid, by rw [hattempt, heq]⟩
    exact not_spends_of_release hledger hok h hwait hspend
  · -- The holder schedules a retry, which it does below the limit only.
    have hattempt := holder_of_write hinv hholders hok hfind hpc hmatch
    have hid : (s.workers i).job.id = k := (updateMatches_id hmatch).symm.trans (key_of_find? hfind)
    obtain ⟨x, hx, hcopyLimit⟩ := hok.row i ⟨by simp [hpc], hid⟩
    rw [hfind] at hx
    obtain rfl := Option.some.inj hx
    have hlt := hretry i .reschedule (.inr hpc) rfl (by rw [hcopyLimit]; exact hpos)
    rw [hattempt, hcopyLimit] at hlt
    exact hge (heq ▸ hlt)

/-- The numbers spent after a step. -/
theorem step_spent (hinv : s.Inv) (hholders : s.HoldersOk) (hok : CopiesOk k s)
    (hretry : ∀ i, (s.workers i).RetryOk) (hledger : LedgerOk k log s)
    (h : step cfg s a = some s') (hnot : delivers k s a = false) {r r' : Row}
    (hfind : s.db.find? k = some r) (hfind' : s'.db.find? k = some r')
    (hnonneg : 0 ≤ r.attempt) {n : ℤ}
    (hspend : s'.Spends k (log ++ handlerStarts k s a) n) :
    1 ≤ n ∧ n ≤ r'.attempt ∧
      (0 < r'.taskMaxRetries → r'.taskMaxRetries ≤ n →
        n = r'.attempt ∧ r'.state ≠ .pending) := by
  have hchange := rowChange_of_find? h hfind hfind'
  rcases spends_of_step hok h hnot hspend with hold | ⟨i, call, x, rfl, hx, hsel, rfl⟩
  · obtain ⟨x, hx, hone, hle, hlimit⟩ := hledger.spent n hold
    rw [hfind] at hx
    obtain rfl := Option.some.inj hx
    rw [hchange.taskMaxRetries]
    rcases attempt_of_change hinv hholders hok hfind hchange with
      heq | ⟨i, call, rfl, hsel, rfl⟩
    · rw [heq]
      refine ⟨hone, hle, ?_⟩
      intro hpos hge
      refine ⟨(hlimit hpos hge).1, ?_⟩
      intro hpending
      exact not_lt.mpr hge
        (lt_of_pending hinv hholders hok hretry hledger h hfind hchange hpending hpos hold hspend)
    · -- The row was up for a claim, so everything spent is below the limit.
      refine ⟨hone, le_trans hle (Int.le_add_one (le_refl _)), ?_⟩
      intro hpos hge
      exact absurd (selectDue_spec hsel).2.1 (hlimit hpos hge).2
  · rw [hfind] at hx
    obtain rfl := Option.some.inj hx
    rw [step_find? h hfind, rowAfter_claimNext hsel] at hfind'
    obtain rfl := Option.some.inj hfind'
    exact ⟨Int.le_add_of_nonneg_left hnonneg, le_refl _, fun _ _ => ⟨rfl, nofun⟩⟩

/-- A waiting copy after a step has a number that is not in the log. -/
theorem step_unstarted (hok : CopiesOk k s) (hledger : LedgerOk k log s)
    (h : step cfg s a = some s') (hnot : delivers k s a = false) {i : ℕ} {n : ℤ}
    (hwait : s'.Waits k i n) : n ∉ log ++ handlerStarts k s a := by
  intro hlog
  rcases waits_of_step hok h hnot hwait with ⟨hold, hact⟩ | ⟨call, r, rfl, hfind, -, rfl⟩
  · rcases List.mem_append.mp hlog with hmem | hmem
    · exact hledger.unstarted i n hold hmem
    · obtain ⟨j, rfl, hj⟩ := waits_of_mem_handlerStarts h hmem
      obtain rfl := hledger.distinct i j n hold hj
      exact absurd (hact _ rfl) (by simp [WorkerAct.endsWait])
  · rcases List.mem_append.mp hlog with hmem | hmem
    · obtain ⟨x, hx, -, hle, -⟩ := hledger.spent _ (.inl hmem)
      rw [hfind] at hx
      obtain rfl := Option.some.inj hx
      exact absurd hle (not_le.mpr (Int.lt_succ _))
    · cases hmem

/-- Waiting copies after a step have different numbers. -/
theorem step_distinct (hok : CopiesOk k s) (hledger : LedgerOk k log s)
    (h : step cfg s a = some s') (hnot : delivers k s a = false) {i j : ℕ} {n : ℤ}
    (hi : s'.Waits k i n) (hj : s'.Waits k j n) : i = j := by
  -- A claim gives its copy a number beyond all that were spent.
  have hnew : ∀ {i call r}, a = .claimNext i call → s.db.find? k = some r →
      n = r.attempt + 1 → ∀ j, ¬ s.Waits k j n := by
    rintro i call r rfl hfind rfl j hj
    obtain ⟨x, hx, -, hle, -⟩ := hledger.spent _ (.inr ⟨j, hj⟩)
    rw [hfind] at hx
    obtain rfl := Option.some.inj hx
    exact absurd hle (not_le.mpr (Int.lt_succ _))
  rcases waits_of_step hok h hnot hi with ⟨hi', -⟩ | ⟨call, r, ha, hfind, -, hn⟩
  · rcases waits_of_step hok h hnot hj with ⟨hj', -⟩ | ⟨call, r, ha, hfind, -, hn⟩
    · exact hledger.distinct i j n hi' hj'
    · exact absurd hi' (hnew ha hfind hn i)
  · rcases waits_of_step hok h hnot hj with ⟨hj', -⟩ | ⟨call', r', ha', -⟩
    · exact absurd hj' (hnew ha hfind hn j)
    · rw [ha] at ha'
      cases ha'
      rfl

/-- Every step that delivers no Kafka copy of the job keeps the ledger. -/
theorem step_ledgerOk (hinv : s.Inv) (hholders : s.HoldersOk) (hok : CopiesOk k s)
    (hretry : ∀ i, (s.workers i).RetryOk) (hledger : LedgerOk k log s)
    (hnonneg : ∀ r, s.db.find? k = some r → 0 ≤ r.attempt) (h : step cfg s a = some s')
    (hnot : delivers k s a = false) : LedgerOk k (log ++ handlerStarts k s a) s' where
  nodup := by
    refine hledger.nodup.append ?_ ?_
    · unfold handlerStarts
      split
      · split <;> simp
      · exact List.nodup_nil
    · intro n hold hnew
      obtain ⟨i, -, hwait⟩ := waits_of_mem_handlerStarts h hnew
      exact hledger.unstarted i n hwait hold
  unstarted _ _ := step_unstarted hok hledger h hnot
  distinct _ _ _ := step_distinct hok hledger h hnot
  spent := by
    intro n hspend
    obtain ⟨r, hfind⟩ : ∃ r, s.db.find? k = some r := by
      rcases spends_of_step hok h hnot hspend with hold | ⟨_, _, r, -, hfind, -⟩
      · obtain ⟨r, hfind, -⟩ := hledger.spent n hold
        exact ⟨r, hfind⟩
      · exact ⟨r, hfind⟩
    obtain ⟨r', hfind', -⟩ := step_rowChange h hfind
    exact ⟨r', hfind', step_spent hinv hholders hok hretry hledger h hnot hfind hfind'
      (hnonneg r hfind) hspend⟩

end Ledger

/-! ### Runs -/

/-- An attempt counter is never negative. -/
theorem attempt_nonneg_of_exec {cfg : Config} {as : List Action} {s : Sys}
    (h : exec (step cfg) Sys.init as = some s) (hnodup : (drawnTokens as).Nodup) {k : String}
    {r : Row} (hfind : s.db.find? k = some r) : 0 ≤ r.attempt := by
  refine exec_history (H := fun as s => (drawnTokens as).Nodup →
    ∀ r, s.db.find? k = some r → 0 ≤ r.attempt) ?_ ?_ h hnodup r hfind
  · intro _ r hfind
    rw [Sys.init, find?_empty] at hfind
    cases hfind
  · intro as s a s' hs ih hstep hnodup r' hfind'
    have hnodup' := nodup_of_append hnodup
    have hinv := inv_of_exec hs
    rcases hinv.rowOrigin hstep hfind' with ⟨r, hfind, hchange⟩ | ⟨-, job, now, hfresh, rfl⟩
    · have hold := ih hnodup' r hfind
      cases hchange with
      | claimed => exact Int.le_add_one hold
      | @updated i p now hpc hmatch =>
          have hjob := hinv.phase hpc
          change 0 ≤ (s.workers i).job.attempt
          rcases token_of_updateMatches hjob hmatch with htoken | ⟨rfl, -⟩
          · rw [← holdersOk_of_exec hs hnodup' i k r hjob.leaseToken_ne hfind htoken]
            exact hold
          · rw [hjob.2]
            decide
      | _ => exact hold
    · exact le_of_eq hfresh.attempt.symm

/-- **The ledger**, in every run with distinct tokens that delivers no Kafka copy of the
job. -/
theorem ledgerOk_of_exec {cfg : Config} {as : List Action} {s : Sys} {k : String}
    (h : exec (step cfg) Sys.init as = some s) (hnodup : (drawnTokens as).Nodup)
    (hnot : AllSteps (step cfg) (fun s a _ => delivers k s a = false) Sys.init as) :
    CopiesOk k s ∧ LedgerOk k (executions cfg k as) s := by
  refine exec_history (H := fun as s => (drawnTokens as).Nodup →
    AllSteps (step cfg) (fun s a _ => delivers k s a = false) Sys.init as →
      CopiesOk k s ∧ LedgerOk k (executions cfg k as) s) ?_ ?_ h hnodup hnot
  · intro _ _
    have hwaits : ∀ i n, ¬ Sys.init.Waits k i n := by
      rintro i n ⟨hpc, -⟩
      cases hpc
    refine ⟨⟨fun i hcopy => absurd rfl hcopy.1, fun i hcopy => absurd rfl hcopy.1⟩, ?_⟩
    refine ⟨List.nodup_nil, fun i n hi => absurd hi (hwaits i n),
      fun i _ n hi => absurd hi (hwaits i n), ?_⟩
    rintro n (hlog | ⟨i, hi⟩)
    · cases hlog
    · exact absurd hi (hwaits i n)
  · intro as u a v hu ih hstep hnodup hnot
    have hnodup' := nodup_of_append hnodup
    obtain ⟨hok, hledger⟩ := ih hnodup' hnot.of_append
    have hlast : delivers k u a = false := hnot as a [] u v rfl hu hstep
    refine ⟨step_copiesOk hok hstep hlast, ?_⟩
    rw [executions, logSteps_concat hu hstep]
    exact step_ledgerOk (inv_of_exec hu) (holdersOk_of_exec hu hnodup') hok (retryOk_of_exec hu)
      hledger (fun _ => attempt_nonneg_of_exec hu hnodup') hstep hlast

/-- Distinct numbers of which at most one reaches `M` stay distinct when cut off at `M`. -/
theorem card_image_min {log : List ℤ} {M : ℤ} (hnodup : log.Nodup)
    (htop : ∀ n ∈ log, ∀ m ∈ log, M ≤ n → M ≤ m → n = m) :
    (log.toFinset.image (min · M)).card = log.length := by
  rw [← List.toFinset_card_of_nodup hnodup]
  refine Finset.card_image_of_injOn ?_
  intro n hn m hm heq
  have hnm := htop n (by simpa using hn) m (by simpa using hm)
  simp only at heq
  omega

/-- Numbers from one on, cut off at `M`, lie between one and `M`. -/
theorem bounds_of_mem_image_min {log : List ℤ} {M m : ℤ} (hone : ∀ n ∈ log, 1 ≤ n) (hM : 0 < M)
    (hm : m ∈ log.toFinset.image (min · M)) : 1 ≤ m ∧ m ≤ M := by
  obtain ⟨n, hn, rfl⟩ := Finset.mem_image.mp hm
  have hle := hone n (List.mem_toFinset.mp hn)
  omega

/-- The executed numbers, against the row: the one at or beyond the limit is the row's. -/
theorem LedgerOk.executed {k : String} {log : List ℤ} {s : Sys} (hledger : LedgerOk k log s)
    {r : Row} (hfind : s.db.find? k = some r) (hpos : 0 < r.taskMaxRetries) :
    ∀ n ∈ log, 1 ≤ n ∧ (r.taskMaxRetries ≤ n → n = r.attempt) := by
  intro n hn
  obtain ⟨x, hx, hone, -, hlimit⟩ := hledger.spent n (.inl hn)
  rw [hfind] at hx
  obtain rfl := Option.some.inj hx
  exact ⟨hone, fun hge => (hlimit hpos hge).1⟩

/-- **The budget**, for a job that only the reconciler delivers. -/
theorem length_executions_le {cfg : Config} {as : List Action} {s : Sys} {k : String} {r : Row}
    (h : exec (step cfg) Sys.init as = some s) (hnodup : (drawnTokens as).Nodup)
    (hnot : AllSteps (step cfg) (fun s a _ => delivers k s a = false) Sys.init as)
    (hfind : s.db.find? k = some r) (hpos : 0 < r.taskMaxRetries) :
    ((executions cfg k as).length : ℤ) ≤ r.taskMaxRetries := by
  obtain ⟨-, hledger⟩ := ledgerOk_of_exec h hnodup hnot
  have hspent := hledger.executed hfind hpos
  have htop : ∀ n ∈ executions cfg k as, ∀ m ∈ executions cfg k as,
      r.taskMaxRetries ≤ n → r.taskMaxRetries ≤ m → n = m := by
    intro n hn m hm hge hge'
    rw [(hspent n hn).2 hge, (hspent m hm).2 hge']
  have hsub : (executions cfg k as).toFinset.image (min · r.taskMaxRetries) ⊆
      Finset.Icc 1 r.taskMaxRetries := fun m hm =>
    Finset.mem_Icc.mpr (bounds_of_mem_image_min (fun n hn => (hspent n hn).1) hpos hm)
  have hcard := Finset.card_le_card hsub
  rw [card_image_min hledger.nodup htop, Int.card_Icc] at hcard
  omega

end Conduit
