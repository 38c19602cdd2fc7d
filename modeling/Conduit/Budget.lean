import Conduit.Executions
import Conduit.Idempotency

/-!
# Jobs That Only the Reconciler Delivers

A job enqueued with a due time in the future is inserted and not published, so no Kafka copy
of it ever exists and its retry budget is an upper bound on its executions.

It is not a lower bound. `ClaimNextJob` counts the attempt when it claims the row, before the
circuit breaker, the lock and the pool are asked, and `ReleaseClaim` leaves the counter as it
is. A released claim below the limit therefore takes one execution away: a job that ends in
the dead letter on a transient error has been executed `MaxRetries` times exactly when no
claim of it was released below the limit.

## Main results

* `not_delivers_of_ahead`: a job enqueued ahead of its time is never delivered by Kafka.
* `executions_le_maxRetries`: it is executed at most `MaxRetries` times.
* `accounted_of_exec`: every attempt number given out was executed, was released, or is held.
* `executions_eq_iff`: a job in the dead letter has used up its budget exactly when no claim
  of it was released below the limit.
-/

namespace Conduit

open KeyedTable Transition

/-! ### Jobs enqueued ahead of their time -/

/-- The run inserts job `k` with limit `limit` and a due time in the future. -/
def EnqueuedAhead (cfg : Config) (as : List Action) (k : String) (limit : ℤ) : Prop :=
  ∃ x ∈ inserted cfg as, x.job.id = k ∧ x.job.task.maxRetries = limit ∧
    ∃ due ∈ x.job.scheduledAt, x.now < due

/-- A job enqueued ahead of its time is never delivered by Kafka. -/
theorem not_delivers_of_ahead {cfg : Config} {as : List Action} {s : Sys} {k : String}
    {limit : ℤ} (h : exec (step cfg) Sys.init as = some s)
    (hahead : EnqueuedAhead cfg as k limit) :
    AllSteps (step cfg) (fun s a _ => delivers k s a = false) Sys.init as := by
  obtain ⟨x, hx, hid, -, due, hdue, hfuture⟩ := hahead
  rintro pre a post u v rfl hpre -
  by_contra hdelivers
  obtain ⟨job, hjob, hk⟩ : ∃ job ∈ u.kafka, job.id = k := by
    unfold delivers at hdelivers
    split at hdelivers
    · rw [Bool.not_eq_false, Option.any_eq_true] at hdelivers
      obtain ⟨job, hget, hk⟩ := hdelivers
      exact ⟨job, List.mem_of_getElem? hget, of_decide_eq_true hk⟩
    · exact absurd rfl hdelivers
  -- The record stems from an insertion that was due, and `k` is inserted only once.
  obtain ⟨c, now, hmem, hpublish⟩ := (insertionsOk_of_exec hpre).kafka job hjob
  have hmem' : ⟨c, now, job⟩ ∈ inserted cfg (pre ++ a :: post) := by
    rw [inserted, logSteps_append hpre]
    exact List.mem_append_left _ hmem
  have hsame := (insertionsOk_of_exec h).eq_of_id hx hmem' (hid.trans hk.symm)
  subst hsame
  exact absurd (of_decide_eq_true hpublish due hdue) (not_le.mpr hfuture)

/-- The row of an inserted job has its limit. -/
theorem limit_of_inserted {cfg : Config} {as : List Action} {s : Sys}
    (h : exec (step cfg) Sys.init as = some s) {x : Insertion} (hx : x ∈ inserted cfg as) :
    ∃ r, s.db.find? x.job.id = some r ∧ r.taskMaxRetries = x.job.task.maxRetries := by
  refine exec_history (H := fun as s => x ∈ inserted cfg as →
    ∃ r, s.db.find? x.job.id = some r ∧ r.taskMaxRetries = x.job.task.maxRetries)
    (fun hx => by cases hx) ?_ h hx
  intro as u a v hu ih hstep hx
  rw [inserted, logSteps_concat hu hstep] at hx
  rcases List.mem_append.mp hx with hold | hnew
  · obtain ⟨r, hfind, hlimit⟩ := ih hold
    obtain ⟨r', hfind', hlimit'⟩ := step_taskMaxRetries hstep hfind
    exact ⟨r', hfind', hlimit'.trans hlimit⟩
  · obtain ⟨createNow, hcreate, -⟩ := step_insertion hstep hnew
    exact ⟨insertRow createNow x.job, by rw [find?_createJob hcreate, if_pos rfl], rfl⟩

/-- **The retry budget is an upper bound.** In every run with distinct tokens, a job enqueued
with a positive limit and a due time in the future is executed at most that often. -/
theorem executions_le_maxRetries {cfg : Config} {as : List Action} {s : Sys} {k : String}
    {limit : ℤ} (h : exec (step cfg) Sys.init as = some s) (hnodup : (drawnTokens as).Nodup)
    (hahead : EnqueuedAhead cfg as k limit) (hpos : 0 < limit) :
    ((executions cfg k as).length : ℤ) ≤ limit := by
  have hnot := not_delivers_of_ahead h hahead
  obtain ⟨x, hx, rfl, rfl, -⟩ := hahead
  obtain ⟨r, hfind, hlimit⟩ := limit_of_inserted h hx
  rw [← hlimit] at hpos ⊢
  exact length_executions_le h hnodup hnot hfind hpos

/-- A request for a webhook call with two attempts, due a second after the epoch. -/
def laterRequest : EnqueueRequest :=
  { sampleRequest with
    task := { sampleRequest.task with maxRetries := 2 }
    scheduledAt := some second }

/-- Enqueue the later job, under the sample id, at time zero. -/
def enqueueLater : List Action :=
  [.enqueue 0 (.start laterRequest), .enqueue 0 .lookup, .enqueue 0 (.insert (sampleRandom 0) 0 0)]

/-- The second attempt of a job, up to the error of its handler and the write of the dead
letter. -/
def failLast (i : ℕ) (b : UInt8) (now : Time) : List Action :=
  claimSample i b now :: runClaimed i now ++
    workerActs i [.finish (.error ⟨"connection refused", false⟩ now second), .read]

/-- The later job fails twice and is about to go to the dead letter. -/
def failedTwice : List Action := enqueueLater ++ failOnce 0 1 (10 * second) ++
  failLast 1 2 (20 * second)

/-- The later job is executed no more often than its limit allows. -/
theorem executions_le_failedTwice :
    EnqueuedAhead ⟨.empty, 5⟩ failedTwice sampleId 2 ∧
      ((executions ⟨.empty, 5⟩ sampleId failedTwice).length : ℤ) ≤ 2 := by
  have hahead : EnqueuedAhead ⟨.empty, 5⟩ failedTwice sampleId 2 := by
    obtain ⟨x, hx, hall⟩ := List.any_eq_true.mp
      (show (inserted ⟨.empty, 5⟩ failedTwice).any (fun x =>
        decide (x.job.id = sampleId ∧ x.job.task.maxRetries = 2 ∧
          x.job.scheduledAt = some second ∧ x.now < second)) = true by decide +kernel)
    obtain ⟨hid, hlimit, hdue, hfuture⟩ := of_decide_eq_true hall
    exact ⟨x, hx, hid, hlimit, second, hdue, hfuture⟩
  obtain ⟨s, hs⟩ := Option.isSome_iff_exists.mp
    (show (exec (step ⟨.empty, 5⟩) Sys.init failedTwice).isSome = true by decide +kernel)
  exact ⟨hahead, executions_le_maxRetries hs (by decide +kernel) hahead (by decide)⟩

/-! ### Released claims -/

/-- The attempt number of the claim of job `k` that the action releases. -/
def releases (k : String) (s : Sys) : Action → List ℤ
  | .worker i (.releaseClaim _) =>
    if (s.db.find? k).any (holdsClaim (s.workers i).job) then [(s.workers i).job.attempt] else []
  | _ => []

/-- The released claims of job `k` in a run, by attempt number. -/
def released (cfg : Config) (k : String) (as : List Action) : List ℤ :=
  logSteps (step cfg) (releases k) Sys.init as

/-- The action releases a claim of job `k` below its limit. -/
def releasesEarly (k : String) (s : Sys) : Action → Bool
  | .worker i (.releaseClaim _) =>
    (s.db.find? k).any fun r =>
      holdsClaim (s.workers i).job r && r.attempt < r.taskMaxRetries
  | _ => false

/-! ### What a worker has behind it -/

/-- The phases that only an executed copy reaches. -/
def Phase.ran : Phase → Bool
  | .complete | .fail _ | .reschedule => true
  | _ => false

/-- The program counters that only an executed copy reaches. -/
def Pc.ran : Pc → Bool
  | .executing => true
  | .read p | .write p => p.ran
  | _ => false

/-- The program counters of `deadLetter`. -/
def Pc.burying : Pc → Bool
  | .read .deadLetter | .write .deadLetter => true
  | _ => false

/-- The program counters after the handler. -/
def Pc.finished : Pc → Bool
  | .read .claim | .write .claim => false
  | .read _ | .write _ | .unlock | .done => true
  | _ => false

section Moves

variable {cfg : Config} {db db' : Jobs} {w w' : Worker} {act : WorkerAct}

/-- An error marked `ErrNoRetry` goes to the dead letter. -/
theorem Worker.failed_of_noRetry {err : RunError} (herr : err.noRetry = true) (nextRun : Time)
    (w : Worker) : (w.failed cfg err nextRun).pc = .read .deadLetter := by
  have hnot : cfg.shouldRetry w.job err = false := by
    simp [Config.shouldRetry, Config.engineShouldRetry, herr]
  rw [Worker.failed, if_neg (by simp [hnot])]

/-- A worker that calls `ReleaseClaim` stands before it. -/
theorem WorkerStep.pc_of_releaseClaim {dbNow : Timestamp}
    (h : WorkerStep cfg db w (.releaseClaim dbNow) db' w') :
    ∃ reason, w.pc = .release reason := by
  cases h with
  | released hpc => exact ⟨_, hpc⟩

/-- A copy gets among the executed ones when its handler is called. -/
theorem WorkerStep.ran (h : WorkerStep cfg db w act db' w') (hran : w'.pc.ran = true) :
    w.pc.ran = true ∨ act = .exec ∧ handlerRegistered w.job.task.name = true := by
  cases h with
  | @checked p hpc => rw [hpc]; exact .inl hran
  | @written _ p hpc => cases p <;> first | (rw [hpc]; exact .inl rfl) | cases hran
  | started hpc hreg => exact .inr ⟨rfl, hreg⟩
  | noHandler =>
      rw [Worker.failed_of_noRetry rfl] at hran
      cases hran
  | succeeded hpc => rw [hpc]; exact .inl rfl
  | failed hpc => rw [hpc]; exact .inl rfl
  | renewed => exact .inl hran
  | notRenewed => exact .inl hran
  | renewFailed => exact .inl hran
  | refused =>
      rcases w.giveUp_cases _ with heq | ⟨heq, -⟩ <;> rw [heq] at hran <;> cases hran
  | notLocked =>
      rcases w.giveUp_cases _ with heq | ⟨heq, -⟩ <;> rw [heq] at hran <;> cases hran
  | _ => cases hran

/-- A worker past its handler stays there, and gets to the dead letter only from it. -/
theorem WorkerStep.of_finished (h : WorkerStep cfg db w act db' w')
    (hw : w.pc.finished = true) :
    w'.pc.finished = true ∧ (w'.pc.burying = true → w.pc.burying = true) := by
  cases h with
  | @checked p hpc =>
      rw [hpc] at hw ⊢
      cases p <;> first | exact ⟨rfl, id⟩ | cases hw
  | notChecked => exact ⟨rfl, fun h => by cases h⟩
  | @written _ p hpc =>
      rw [hpc] at hw
      cases p <;> first | exact ⟨rfl, fun h => by cases h⟩ | cases hw
  | notWritten => exact ⟨rfl, fun h => by cases h⟩
  | unlocked => exact ⟨rfl, fun h => by cases h⟩
  | readFailed => exact ⟨rfl, fun h => by cases h⟩
  | writeFailed => exact ⟨rfl, fun h => by cases h⟩
  | crashed => exact ⟨rfl, fun h => by cases h⟩
  | renewed => exact ⟨hw, id⟩
  | notRenewed => exact ⟨hw, id⟩
  | renewFailed => exact ⟨hw, id⟩
  | _ => simp_all [Pc.finished]

/-- A transient error leads to the dead letter only at the limit. -/
theorem WorkerStep.of_finish {err : RunError} {now : Time} {delay : Duration}
    (h : WorkerStep cfg db w (.finish (.error err now delay)) db' w') :
    w.pc = .executing ∧ w'.pc.finished = true ∧
      (err.noRetry = false → w'.pc.burying = true → 0 < w.job.task.maxRetries →
        w.job.task.maxRetries ≤ w.job.attempt) := by
  cases h with
  | failed hpc =>
      refine ⟨hpc, ?_, ?_⟩
      · rcases w.failed_cases cfg err (now + delay) with heq | heq <;> rw [heq] <;> rfl
      · intro htransient hbury hpos
        by_contra hlt
        have hretry : cfg.shouldRetry w.job err = true := by
          simp only [Config.shouldRetry, hpos, if_true, htransient, Bool.not_false,
            Bool.true_and, decide_eq_true_eq]
          exact not_le.mp hlt
        rw [Worker.failed, if_pos hretry] at hbury
        cases hbury

end Moves

/-! ### Every attempt number is accounted for -/

/-- The attempt numbers of job `k` that have been given out, with `log` the executed and `rel`
the released ones. -/
structure Accounted (k : String) (log rel : List ℤ) (s : Sys) : Prop where
  /-- A number below the row's was executed or released; so was the row's, if the row is up for
  a claim. -/
  covered : ∀ r n, s.db.find? k = some r → 1 ≤ n →
    n < r.attempt ∨ n = r.attempt ∧ r.state = .pending → n ∈ log ∨ n ∈ rel
  /-- A released number is in the past and will not be executed. -/
  released : ∀ n ∈ rel, ¬ s.Spends k log n ∧ ∃ r, s.db.find? k = some r ∧ 1 ≤ n ∧ n ≤ r.attempt
  /-- Copies past the call of their handler are in the log. -/
  ran : ∀ i, s.Copies k i → (s.workers i).pc.ran = true → (s.workers i).job.attempt ∈ log

section Step

variable {cfg : Config} {s s' : Sys} {a : Action} {k : String} {log rel : List ℤ}

/-- A released claim is that of a waiting copy, which has the number of the row. -/
theorem releases_spec (hinv : s.Inv) (hholders : s.HoldersOk) (h : step cfg s a = some s')
    {n : ℤ} (hn : n ∈ releases k s a) :
    ∃ i dbNow r, a = .worker i (.releaseClaim dbNow) ∧ s.db.find? k = some r ∧
      holdsClaim (s.workers i).job r = true ∧ s.Waits k i n ∧ n = r.attempt := by
  unfold releases at hn
  split at hn
  · rename_i i dbNow
    split at hn
    · rename_i hany
      rw [List.mem_singleton] at hn
      subst hn
      obtain ⟨r, hfind, hmatch⟩ := (Option.any_eq_true _ _).mp hany
      have hid : (s.workers i).job.id = k :=
        (holdsClaim_id hmatch).symm.trans (key_of_find? hfind)
      obtain ⟨reason, hpc⟩ := (step_worker_self h).pc_of_releaseClaim
      refine ⟨i, dbNow, r, rfl, hfind, hmatch, ⟨by rw [hpc]; rfl, hid, rfl⟩, ?_⟩
      exact holder_of_release hinv hholders hfind hpc hmatch
    · cases hn
  · cases hn

theorem step_accounted_covered (hinv : s.Inv) (hholders : s.HoldersOk) (hok : CopiesOk k s)
    (hacc : Accounted k log rel s) (h : step cfg s a = some s')
    (hnot : requeues k s a = false) {r' : Row} {n : ℤ} (hfind' : s'.db.find? k = some r')
    (hone : 1 ≤ n) (hn : n < r'.attempt ∨ n = r'.attempt ∧ r'.state = .pending) :
    n ∈ log ++ handlerStarts k s a ∨ n ∈ rel ++ releases k s a := by
  have hold : ∀ {x : Row}, s.db.find? k = some x →
      n < x.attempt ∨ n = x.attempt ∧ x.state = .pending →
      n ∈ log ++ handlerStarts k s a ∨ n ∈ rel ++ releases k s a := by
    intro x hx hcase
    exact (hacc.covered x n hx hone hcase).imp (List.mem_append_left _) (List.mem_append_left _)
  rcases hinv.rowOrigin h hfind' with ⟨r, hfind, hchange⟩ | ⟨-, job, now, hfresh, rfl⟩
  · rcases attempt_of_change hinv hholders hok hfind hchange with
      heq | ⟨i, call, rfl, hsel, rfl⟩
    · rw [heq] at hn
      rcases hn with hlt | ⟨rfl, hpending⟩
      · exact hold hfind (.inl hlt)
      · rcases pending_of_change hinv hchange hpending with
          hstate | ⟨dbNow, limit, locked, rfl, -⟩ | ⟨i, dbNow, reason, rfl, hpc, hmatch⟩ |
            ⟨i, now, rfl, hpc, hmatch⟩
        · exact hold hfind (.inr ⟨rfl, hstate⟩)
        · -- The row is not requeued, so it was up for a claim before.
          rw [← key_of_find? hfind] at hnot
          rw [step_find? h hfind, rowAfter_requeue hnot] at hfind'
          obtain rfl := Option.some.inj hfind'
          exact hold hfind (.inr ⟨rfl, hpending⟩)
        · refine .inr (List.mem_append_right _ ?_)
          have hattempt := holder_of_release hinv hholders hfind hpc hmatch
          simp [releases, hfind, hmatch, hattempt]
        · have hattempt := holder_of_write hinv hholders hok hfind hpc hmatch
          have hid : (s.workers i).job.id = k :=
            (updateMatches_id hmatch).symm.trans (key_of_find? hfind)
          have hran := hacc.ran i ⟨by simp [hpc], hid⟩ (by rw [hpc]; rfl)
          rw [hattempt] at hran
          exact .inl (List.mem_append_left _ hran)
    · -- A claim takes a row that is up for it.
      have hstate := (selectDue_spec hsel).2.1
      have hlt : n < r.attempt + 1 := by
        rcases hn with hlt | ⟨-, hpending⟩
        · exact hlt
        · cases hpending
      rcases lt_or_eq_of_le (Int.le_of_lt_add_one hlt) with hlt | rfl
      · exact hold hfind (.inl hlt)
      · exact hold hfind (.inr ⟨rfl, hstate⟩)
  · have hzero : (insertRow now job).attempt = 0 := hfresh.attempt
    rw [hzero] at hn
    omega

theorem step_accounted_released (hinv : s.Inv) (hholders : s.HoldersOk) (hok : CopiesOk k s)
    (hledger : LedgerOk k log s) (hacc : Accounted k log rel s) (h : step cfg s a = some s')
    (hnot : delivers k s a = false) {n : ℤ} (hn : n ∈ rel ++ releases k s a) :
    ¬ s'.Spends k (log ++ handlerStarts k s a) n ∧
      ∃ r, s'.db.find? k = some r ∧ 1 ≤ n ∧ n ≤ r.attempt := by
  have hrow : ∀ {r : Row}, s.db.find? k = some r → 1 ≤ n → n ≤ r.attempt →
      ∃ r', s'.db.find? k = some r' ∧ 1 ≤ n ∧ n ≤ r'.attempt := by
    intro r hfind hone hle
    obtain ⟨r', hfind', hchange⟩ := step_rowChange h hfind
    refine ⟨r', hfind', hone, ?_⟩
    rcases attempt_of_change hinv hholders hok hfind hchange with heq | ⟨_, call, -, -, rfl⟩
    · rw [heq]
      exact hle
    · exact le_trans hle (Int.le_add_one (le_refl _))
  rcases List.mem_append.mp hn with hold | hnew
  · obtain ⟨hspent, r, hfind, hone, hle⟩ := hacc.released n hold
    refine ⟨?_, hrow hfind hone hle⟩
    intro hspend
    rcases spends_of_step hok h hnot hspend with hbefore | ⟨i, call, x, -, hx, -, rfl⟩
    · exact hspent hbefore
    · rw [hfind] at hx
      obtain rfl := Option.some.inj hx
      exact absurd hle (not_le.mpr (Int.lt_succ _))
  · obtain ⟨i, dbNow, r, rfl, hfind, -, hwait, -⟩ := releases_spec hinv hholders h hnew
    obtain ⟨x, hx, hone, hle, -⟩ := hledger.spent n (.inr ⟨i, hwait⟩)
    exact ⟨not_spends_of_release hledger hok h hwait, hrow hx hone hle⟩

theorem step_accounted_ran (hok : CopiesOk k s) (hacc : Accounted k log rel s)
    (h : step cfg s a = some s') (hnot : delivers k s a = false) {i : ℕ}
    (hcopy : s'.Copies k i) (hran : (s'.workers i).pc.ran = true) :
    (s'.workers i).job.attempt ∈ log ++ handlerStarts k s a := by
  rcases copies_of_step h hnot hcopy with
    ⟨call, r, -, -, -, heq⟩ | ⟨hold, ⟨heq, -⟩ | ⟨act, rfl, hmove⟩⟩
  · rw [heq] at hran
    cases hran
  · rw [heq] at hran ⊢
    exact List.mem_append_left _ (hacc.ran i hold hran)
  · rw [((hok.claimed i hold).keeps_claim hmove).2]
    rcases hmove.ran hran with hran' | ⟨rfl, hreg⟩
    · exact List.mem_append_left _ (hacc.ran i hold hran')
    · refine List.mem_append_right _ ?_
      simp [handlerStarts, hold.2, hreg]

end Step

/-- **Every attempt number is accounted for**, in every run with distinct tokens that delivers
no Kafka copy of the job and does not requeue it. -/
theorem accounted_of_exec {cfg : Config} {as : List Action} {s : Sys} {k : String}
    (h : exec (step cfg) Sys.init as = some s) (hnodup : (drawnTokens as).Nodup)
    (hnot : AllSteps (step cfg) (fun s a _ => delivers k s a = false) Sys.init as)
    (hkept : AllSteps (step cfg) (fun s a _ => requeues k s a = false) Sys.init as) :
    Accounted k (executions cfg k as) (released cfg k as) s := by
  refine exec_history (H := fun as s => (drawnTokens as).Nodup →
    AllSteps (step cfg) (fun s a _ => delivers k s a = false) Sys.init as →
    AllSteps (step cfg) (fun s a _ => requeues k s a = false) Sys.init as →
      Accounted k (executions cfg k as) (released cfg k as) s) ?_ ?_ h hnodup hnot hkept
  · intro _ _ _
    refine ⟨?_, by simp [released, logSteps], fun i hcopy => absurd rfl hcopy.1⟩
    intro r n hfind
    rw [Sys.init, find?_empty] at hfind
    cases hfind
  · intro as u a v hu ih hstep hnodup hnot hkept
    have hnodup' := nodup_of_append hnodup
    obtain ⟨hok, hledger⟩ := ledgerOk_of_exec hu hnodup' hnot.of_append
    have hacc := ih hnodup' hnot.of_append hkept.of_append
    have hdelivers : delivers k u a = false := hnot as a [] u v rfl hu hstep
    have hrequeues : requeues k u a = false := hkept as a [] u v rfl hu hstep
    have hinv := inv_of_exec hu
    have hholders := holdersOk_of_exec hu hnodup'
    rw [executions, released, logSteps_concat hu hstep, logSteps_concat hu hstep]
    exact ⟨fun _ _ => step_accounted_covered hinv hholders hok hacc hstep hrequeues,
      fun _ => step_accounted_released hinv hholders hok hledger hacc hstep hdelivers,
      fun _ => step_accounted_ran hok hacc hstep hdelivers⟩

/-! ### The dead letter -/

/-- The copy in slot `i` is past its handler; if it is of job `k`, its number is in the log of
executions, and it gets to the dead letter on a transient error only at its limit. -/
def FinishedWith (k : String) (log : List ℤ) (err : RunError) (w : Worker) : Prop :=
  w.pc.finished = true ∧ (w.job.id = k → w.job.attempt ∈ log ∧
    (err.noRetry = false → w.pc.burying = true → 0 < w.job.task.maxRetries →
      w.job.task.maxRetries ≤ w.job.attempt))

/-- A worker whose handler has returned an error is as `FinishedWith` says. -/
theorem finishedWith_of_exec {cfg : Config} {as : List Action} {s : Sys} {k : String}
    (h : exec (step cfg) Sys.init as = some s) (hnodup : (drawnTokens as).Nodup)
    (hnot : AllSteps (step cfg) (fun s a _ => delivers k s a = false) Sys.init as)
    (hkept : AllSteps (step cfg) (fun s a _ => requeues k s a = false) Sys.init as)
    {i : ℕ} {err : RunError} {now : Time} {delay : Duration}
    (hmem : .worker i (.finish (.error err now delay)) ∈ as) :
    FinishedWith k (executions cfg k as) err (s.workers i) := by
  refine exec_history (H := fun as s => (drawnTokens as).Nodup →
    AllSteps (step cfg) (fun s a _ => delivers k s a = false) Sys.init as →
    AllSteps (step cfg) (fun s a _ => requeues k s a = false) Sys.init as →
    .worker i (.finish (.error err now delay)) ∈ as →
      FinishedWith k (executions cfg k as) err (s.workers i))
    (fun _ _ _ hmem => by cases hmem) ?_ h hnodup hnot hkept hmem
  intro as u a v hu ih hstep hnodup hnot hkept hmem
  have hnodup' := nodup_of_append hnodup
  have hnot' := hnot.of_append
  have hok := (ledgerOk_of_exec hu hnodup' hnot').1
  rw [executions, logSteps_concat hu hstep]
  rcases List.mem_append.mp hmem with hold | hlast
  · obtain ⟨hfin, hlog⟩ := ih hnodup' hnot' hkept.of_append hold
    have hused := Pc.ne_idle rfl hfin
    rcases step_worker_used hstep hused with heq | ⟨act, -, hmove⟩
    · rw [heq]
      exact ⟨hfin, fun hid => (hlog hid).imp_left (List.mem_append_left _)⟩
    · obtain ⟨hfin', hbury⟩ := hmove.of_finished hfin
      refine ⟨hfin', ?_⟩
      intro hid
      rw [hmove.job_id] at hid
      obtain ⟨hmem, hlimit⟩ := hlog hid
      rw [((hok.claimed i ⟨hused, hid⟩).keeps_claim hmove).2, hmove.job_task]
      exact ⟨List.mem_append_left _ hmem, fun htransient hb => hlimit htransient (hbury hb)⟩
  · rw [List.mem_singleton] at hlast
    subst hlast
    have hmove := step_worker_self hstep
    obtain ⟨hpc, hfin, hlimit⟩ := hmove.of_finish
    refine ⟨hfin, ?_⟩
    intro hid
    rw [hmove.job_id] at hid
    have hcopy : u.Copies k i := ⟨by simp [hpc], hid⟩
    have hran := (accounted_of_exec hu hnodup' hnot' hkept.of_append).ran i hcopy (by rw [hpc]; rfl)
    rw [((hok.claimed i hcopy).keeps_claim hmove).2, hmove.job_task]
    exact ⟨List.mem_append_left _ hran, hlimit⟩

/-- Executed numbers, of which one, `top`, reaches `M`, and released ones that are none of
them, together all numbers up to `top`: the executed ones are `M` many exactly when no
released one is below `M`. -/
theorem length_eq_iff {log rel : List ℤ} {M top : ℤ} (hnodup : log.Nodup)
    (hone : ∀ n ∈ log, 1 ≤ n) (hM : 0 < M) (hmem : top ∈ log) (hge : M ≤ top)
    (htop : ∀ n ∈ log, M ≤ n → n = top)
    (hcover : ∀ n, 1 ≤ n → n < top → n ∈ log ∨ n ∈ rel)
    (hrel : ∀ n ∈ rel, 1 ≤ n ∧ n ∉ log) : (log.length : ℤ) = M ↔ ∀ n ∈ rel, M ≤ n := by
  have hcard := card_image_min hnodup (M := M) fun n hn m hm hgen hgem => by
    rw [htop n hn hgen, htop m hm hgem]
  have hsub : log.toFinset.image (min · M) ⊆ Finset.Icc 1 M := fun m hm =>
    Finset.mem_Icc.mpr (bounds_of_mem_image_min hone hM hm)
  have hfull : (log.length : ℤ) = M ↔ log.toFinset.image (min · M) = Finset.Icc 1 M := by
    rw [← hcard]
    constructor
    · intro hlen
      refine Finset.eq_of_subset_of_card_le hsub ?_
      rw [Int.card_Icc]
      omega
    · intro heq
      rw [heq, Int.card_Icc]
      omega
  rw [hfull]
  constructor
  · intro heq n hn
    by_contra hlt
    obtain ⟨hpos, hnotMem⟩ := hrel n hn
    have hin : n ∈ log.toFinset.image (min · M) := by
      rw [heq, Finset.mem_Icc]
      omega
    obtain ⟨m, hm, hmin⟩ := Finset.mem_image.mp hin
    have hmn : m = n := by omega
    rw [hmn, List.mem_toFinset] at hm
    exact hnotMem hm
  · intro hlate
    refine Finset.Subset.antisymm hsub ?_
    intro n hn
    rw [Finset.mem_Icc] at hn
    rw [Finset.mem_image]
    by_cases hlt : n < M
    · have hlog : n ∈ log := by
        rcases hcover n hn.1 (by omega) with hlog | hbad
        · exact hlog
        · exact absurd (hlate n hbad) (by omega)
      exact ⟨n, List.mem_toFinset.mpr hlog, by omega⟩
    · exact ⟨top, List.mem_toFinset.mpr hmem, by omega⟩

/-- The limit of a row is the same at any two moments of a run. -/
theorem limit_of_exec {cfg : Config} {as : List Action} {s t : Sys} {k : String} {r r' : Row}
    (h : exec (step cfg) s as = some t) (hfind : s.db.find? k = some r)
    (hfind' : t.db.find? k = some r') : r'.taskMaxRetries = r.taskMaxRetries := by
  obtain ⟨x, hx, hlimit⟩ := exec_invariant
    (I := fun u => ∃ x, u.db.find? k = some x ∧ x.taskMaxRetries = r.taskMaxRetries)
    (fun u a v ⟨x, hx, hlimit⟩ hstep => by
      obtain ⟨y, hy, hkept⟩ := step_taskMaxRetries hstep hx
      exact ⟨y, hy, hkept.trans hlimit⟩) ⟨r, hfind, rfl⟩ h
  rw [hfind'] at hx
  rw [Option.some.inj hx, hlimit]

/-- A released number below the limit belongs to a step that releases a claim early. -/
theorem released_early_iff {cfg : Config} {as : List Action} {s : Sys} {k : String} {r : Row}
    (h : exec (step cfg) Sys.init as = some s) (hnodup : (drawnTokens as).Nodup)
    (hfind : s.db.find? k = some r) :
    (∀ n ∈ released cfg k as, r.taskMaxRetries ≤ n) ↔
      AllSteps (step cfg) (fun s a _ => releasesEarly k s a = false) Sys.init as := by
  constructor
  · rintro hlate pre a post u v rfl hu hstep
    by_contra hearly
    rw [Bool.not_eq_false] at hearly
    unfold releasesEarly at hearly
    split at hearly
    · rename_i i dbNow
      obtain ⟨x, hx, hboth⟩ := (Option.any_eq_true _ _).mp hearly
      rw [Bool.and_eq_true, decide_eq_true_eq] at hboth
      obtain ⟨hmatch, hlt⟩ := hboth
      have hmem : (u.workers i).job.attempt ∈
          releases k u (.worker i (.releaseClaim dbNow)) := by
        simp [releases, hx, hmatch]
      obtain ⟨_, _, y, -, hy, -, -, heq⟩ :=
        releases_spec (inv_of_exec hu) (holdersOk_of_exec hu (nodup_of_append hnodup)) hstep hmem
      rw [hx] at hy
      obtain rfl := Option.some.inj hy
      have hge := hlate _ ((mem_logSteps_iff h).mpr ⟨pre, _, post, u, v, rfl, hu, hstep, hmem⟩)
      rw [limit_of_exec (exec_drop h hu) hx hfind, heq] at hge
      exact absurd hlt (not_lt.mpr hge)
    · cases hearly
  · intro hall n hn
    obtain ⟨pre, a, post, u, v, rfl, hu, hstep, hmem⟩ := (mem_logSteps_iff h).mp hn
    obtain ⟨i, dbNow, x, rfl, hx, hmatch, -, rfl⟩ :=
      releases_spec (inv_of_exec hu) (holdersOk_of_exec hu (nodup_of_append hnodup)) hstep hmem
    have hnot : releasesEarly k u (.worker i (.releaseClaim dbNow)) = false :=
      hall pre _ post u v rfl hu hstep
    rw [limit_of_exec (exec_drop h hu) hx hfind]
    simpa [releasesEarly, hx, hmatch] using hnot

/-- **Releasing a claim spends the budget.** Take any run with distinct tokens that delivers no
Kafka copy of job `k` and does not requeue it, and let `deadLetter` be about to move the job
to `DEAD` after a transient error: its handler has been executed `MaxRetries` times exactly
when no step of the run released a claim of it below that limit. -/
theorem executions_eq_iff {cfg : Config} {as : List Action} {s : Sys} {k : String} {r : Row}
    {i : ℕ} {err : RunError} {now : Time} {delay : Duration}
    (h : exec (step cfg) Sys.init as = some s) (hnodup : (drawnTokens as).Nodup)
    (hnot : AllSteps (step cfg) (fun s a _ => delivers k s a = false) Sys.init as)
    (hkept : AllSteps (step cfg) (fun s a _ => requeues k s a = false) Sys.init as)
    (hfind : s.db.find? k = some r) (hpos : 0 < r.taskMaxRetries)
    (hpc : (s.workers i).pc = .write .deadLetter)
    (hmatch : updateMatches (s.workers i).job r = true)
    (herror : .worker i (.finish (.error err now delay)) ∈ as)
    (htransient : err.noRetry = false) :
    ((executions cfg k as).length : ℤ) = r.taskMaxRetries ↔
      AllSteps (step cfg) (fun s a _ => releasesEarly k s a = false) Sys.init as := by
  obtain ⟨hok, hledger⟩ := ledgerOk_of_exec h hnodup hnot
  have hacc := accounted_of_exec h hnodup hnot hkept
  have hid : (s.workers i).job.id = k := (updateMatches_id hmatch).symm.trans (key_of_find? hfind)
  have hattempt := holder_of_write (inv_of_exec h) (holdersOk_of_exec h hnodup) hok hfind hpc
    hmatch
  obtain ⟨-, hfinished⟩ := finishedWith_of_exec h hnodup hnot hkept herror
  obtain ⟨hmem, hlimit⟩ := hfinished hid
  obtain ⟨x, hx, hcopyLimit⟩ := hok.row i ⟨by simp [hpc], hid⟩
  rw [hfind] at hx
  obtain rfl := Option.some.inj hx
  rw [hcopyLimit, hattempt] at hlimit
  rw [hattempt] at hmem
  have hspent := hledger.executed hfind hpos
  rw [← released_early_iff h hnodup hfind]
  refine length_eq_iff hledger.nodup (fun n hn => (hspent n hn).1) hpos hmem
    (hlimit htransient (by rw [hpc]; rfl) hpos) (fun n hn => (hspent n hn).2) ?_ ?_
  · exact fun n hone hlt => hacc.covered r n hfind hone (.inl hlt)
  · intro n hn
    obtain ⟨hspend, -, -, hone, -⟩ := hacc.released n hn
    exact ⟨hone, fun hlog => hspend (.inl hlog)⟩

/-- The claims of the later job that were executed use up its budget. -/
theorem executions_eq_failedTwice :
    ((executions ⟨.empty, 5⟩ sampleId failedTwice).length : ℤ) = 2 := by
  obtain ⟨s, hs, hrow⟩ := (Option.any_eq_true _ _).mp
    (show (exec (step ⟨.empty, 5⟩) Sys.init failedTwice).any (fun s =>
        decide ((s.workers 1).pc = .write .deadLetter) &&
        (s.db.find? sampleId).any fun r =>
          updateMatches (s.workers 1).job r && decide (r.taskMaxRetries = 2)) = true by
      decide +kernel)
  simp only [Bool.and_eq_true, Option.any_eq_true, decide_eq_true_eq] at hrow
  obtain ⟨hpc, r, hfind, hmatch, hlimit⟩ := hrow
  have hcheck : checkSteps (step ⟨.empty, 5⟩) (fun s a => !delivers sampleId s a &&
      !requeues sampleId s a && !releasesEarly sampleId s a) Sys.init failedTwice = true := by
    decide +kernel
  have hall := allSteps_of_checkSteps hcheck
  simp only [Bool.and_eq_true, Bool.not_eq_true'] at hall
  have herror : Action.worker 1 (.finish (.error ⟨"connection refused", false⟩ (20 * second)
      second)) ∈ failedTwice := by
    simp [failedTwice, failLast, workerActs]
  have heq := executions_eq_iff hs (by decide +kernel)
    (fun pre a post u v has hu ha => (hall pre a post u v has hu ha).1.1)
    (fun pre a post u v has hu ha => (hall pre a post u v has hu ha).1.2) hfind
    (by rw [hlimit]; decide) hpc hmatch herror rfl
  rw [hlimit] at heq
  exact heq.mpr fun pre a post u v has hu ha => (hall pre a post u v has hu ha).2

/-- The first claim of the later job finds the circuit open and is released; the second one is
executed and fails. -/
def releasedOnce : List Action :=
  enqueueLater ++ claimSample 0 1 (10 * second) :: workerActs 0
    [.submit true, .begin, .checkDue (10 * second), .allow false,
      .releaseClaim (toTimestamp (10 * second))] ++
  failLast 1 2 (20 * second)

/-- With a limit of two the job goes to the dead letter, on a transient error, after one
execution: no lease has expired, no worker has crashed and Kafka has delivered nothing. -/
theorem executions_ne_releasedOnce :
    ∃ s s' r r', exec (step ⟨.empty, 5⟩) Sys.init releasedOnce = some s ∧
      step ⟨.empty, 5⟩ s (.worker 1 (.write (20 * second))) = some s' ∧
      (s.workers 1).pc = .write .deadLetter ∧
      s.db.find? sampleId = some r ∧ r.taskMaxRetries = 2 ∧ r.state = .running ∧
      s'.db.find? sampleId = some r' ∧ r'.state = .dead ∧
      checkSteps (step ⟨.empty, 5⟩) (fun s a => !delivers sampleId s a &&
        !requeues sampleId s a) Sys.init releasedOnce = true ∧
      (executions ⟨.empty, 5⟩ sampleId releasedOnce).length = 1 := by
  obtain ⟨s, hs, h⟩ := (Option.any_eq_true _ _).mp
    (show (exec (step ⟨.empty, 5⟩) Sys.init releasedOnce).any (fun s =>
        decide ((s.workers 1).pc = .write .deadLetter) &&
        (s.db.find? sampleId).any (fun r =>
          decide (r.taskMaxRetries = 2) && decide (r.state = .running)) &&
        (step ⟨.empty, 5⟩ s (.worker 1 (.write (20 * second)))).any fun s' =>
          (s'.db.find? sampleId).any fun r' => decide (r'.state = .dead)) = true by
      decide +kernel)
  simp only [Bool.and_eq_true, Option.any_eq_true, decide_eq_true_eq] at h
  obtain ⟨⟨hpc, r, hfind, hlimit, hrunning⟩, s', hs', r', hfind', hdead⟩ := h
  exact ⟨s, s', r, r', hs, hs', hpc, hfind, hlimit, hrunning, hfind', hdead,
    by decide +kernel, by decide +kernel⟩

end Conduit
