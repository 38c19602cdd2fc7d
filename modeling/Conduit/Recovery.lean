import Conduit.Rows

/-!
# Which Rows Can Be Recovered

A job survives a crash if the reconciler can pick its row up again: `ClaimNextJob` selects
`PENDING` rows and `RequeueExpiredRunning` selects `RUNNING` rows with a lease. Neither selects
a `FAILED` row, however often it runs. `scheduleRetry` passes through `FAILED` with a write of
its own, and only a second write of the same worker leaves it, so a crash or a store error in
between loses the job.

## Main results

* `recoverable_iff`: in a reachable table a row is recoverable unless it is `FAILED`.
* `failed_kept_of_reconciler`: whatever the reconciler does, a `FAILED` row stays as it is.
* `allStates_recoverable_iff`: along a run every row is recoverable at every moment exactly
  when no worker records a failed attempt.
-/

namespace Conduit

open KeyedTable Transition

/-- The row is finished, or one of the reconciler's two selections can find it. -/
def Row.Recoverable (r : Row) : Prop :=
  r.state.terminal = true ∨ r.state = .pending ∨
    (r.state = .running ∧ r.leaseExpiresAt ≠ none)

/-- Every row of the table is recoverable. -/
def Sys.Recoverable (s : Sys) : Prop := ∀ r ∈ s.db.rows, r.Recoverable

/-- The action is the first write of `scheduleRetry` and finds its row. -/
def recordsFailure (s : Sys) : Action → Bool
  | .worker i (.write _) =>
    match (s.workers i).pc with
    | .write (.fail _) =>
      (s.db.find? (s.workers i).job.id).any fun r =>
        r.leaseToken = some (s.workers i).job.leaseToken
    | _ => false
  | _ => false

/-- In a reachable table a row is recoverable unless it is `FAILED`. -/
theorem recoverable_iff {r : Row} (hr : RowOk r) : r.Recoverable ↔ r.state ≠ .failed := by
  unfold Row.Recoverable
  cases hstate : r.state with
  | pending => simp
  | running => simp [(hr.leaseColumns.running hstate).2.1]
  | completed => simp [JobState.terminal]
  | failed => simp [JobState.terminal]
  | dead => simp [JobState.terminal]
  | other text => exact absurd hstate (hr.state text)

/-- The two statements by which the reconciler picks rows up. -/
def Action.ofReconciler : Action → Bool
  | .requeue _ _ _ | .claimNext _ _ => true
  | _ => false

/-- Neither of them changes a `FAILED` row. -/
theorem step_failed_kept {cfg : Config} {s s' : Sys} {a : Action} {k : String} {r : Row}
    (h : step cfg s a = some s') (ha : a.ofReconciler = true) (hfind : s.db.find? k = some r)
    (hstate : r.state = .failed) : s'.db.find? k = some r := by
  obtain ⟨r', hfind', hchange⟩ := step_rowChange h hfind
  cases hchange with
  | same => exact hfind'
  | requeued hexp => simp [leaseExpired, hstate] at hexp
  | claimed _ hpending =>
      rw [hstate] at hpending
      cases hpending
  | _ => cases ha

/-- **A lost job.** However often the reconciler looks, it leaves a `FAILED` row as it is. -/
theorem failed_kept_of_reconciler {cfg : Config} {s s' : Sys} {as : List Action} {k : String}
    {r : Row} (h : exec (step cfg) s as = some s') (has : ∀ a ∈ as, a.ofReconciler = true)
    (hfind : s.db.find? k = some r) (hstate : r.state = .failed) : s'.db.find? k = some r := by
  induction as generalizing s with
  | nil =>
      obtain rfl := Option.some.inj h
      exact hfind
  | cons a as ih =>
      obtain ⟨u, hu, hrest⟩ := exec_cons_iff.mp h
      exact ih hrest (fun b hb => has b (List.mem_cons_of_mem _ hb))
        (step_failed_kept hu (has a List.mem_cons_self) hfind hstate)

/-- A row becomes `FAILED` only when a worker records a failed attempt. -/
theorem recordsFailure_of_rowChange {s : Sys} {a : Action} {r r' : Row} (hinv : s.Inv)
    (hfind : s.db.find? r.id = some r) (h : RowChange s r a r')
    (hne : r.state ≠ .failed) (hstate : r'.state = .failed) :
    recordsFailure s a = true := by
  cases h with
  | same => exact absurd hstate hne
  | cancelled => cases hstate
  | requeued =>
      simp only [requeueEdit] at hstate
      split at hstate <;> cases hstate
  | claimed => cases hstate
  | @updated i p now hpc hmatch =>
      have hjob := hinv.phase hpc
      have hfailed : (s.workers i).job.state = .failed := hstate
      obtain ⟨nextRun, rfl⟩ := hjob.eq_fail hfailed
      rw [updateMatches_id hmatch] at hfind
      rcases token_of_updateMatches hjob hmatch with htoken | ⟨hclaim, -⟩
      · simp [recordsFailure, hpc, hfind, htoken]
      · cases hclaim
  | renewed => exact absurd hstate hne
  | released => cases hstate

/-- A step that records no failed attempt keeps every row recoverable. -/
theorem step_recoverable {cfg : Config} {s s' : Sys} {a : Action} (hok : s.Ok)
    (hrec : s.Recoverable) (h : step cfg s a = some s') (hnot : recordsFailure s a = false) :
    s'.Recoverable := by
  intro r' hr'
  have hok' := step_ok s a s' hok h
  have hfind' := find?_of_mem hr'
  rw [recoverable_iff (hok'.2 _ r' hfind')]
  intro hstate
  rcases hok.1.rowOrigin h hfind' with ⟨r, hfind, hchange⟩ | ⟨-, job, now, hfresh, rfl⟩
  · have hne : r.state ≠ .failed :=
      (recoverable_iff (hok.2 _ r hfind)).mp (hrec r (mem_of_find? hfind))
    have hrecords := recordsFailure_of_rowChange hok.1 (find?_id hfind) hchange hne hstate
    rw [hnot] at hrecords
    cases hrecords
  · have hpending : job.state = .failed := hstate
    rw [hfresh.state] at hpending
    cases hpending

/-- Recording a failed attempt leaves a row that is not recoverable. -/
theorem not_recoverable_of_recordsFailure {cfg : Config} {s s' : Sys} {a : Action}
    (hok : s.Ok) (h : step cfg s a = some s') (hrec : recordsFailure s a = true) :
    ¬ s'.Recoverable := by
  intro hall
  unfold recordsFailure at hrec
  split at hrec
  · rename_i i now
    split at hrec
    · rename_i nextRun hpc
      simp only [Option.any_eq_true, decide_eq_true_eq] at hrec
      obtain ⟨r, hfind, htoken⟩ := hrec
      have hmatch : updateMatches (s.workers i).job r = true :=
        updateMatches_of_token hfind htoken
      have hfind' := step_find? h hfind
      rw [rowAfter_write hpc hmatch] at hfind'
      have hrowOk := (step_ok s _ s' hok h).2 _ _ hfind'
      exact (recoverable_iff hrowOk).mp (hall _ (mem_of_find? hfind')) (hok.1.phase hpc).1
    · cases hrec
  · cases hrec

/-- **No job is lost** along a run, at any moment of it, exactly when no step of the run
records a failed attempt. -/
theorem allStates_recoverable_iff (cfg : Config) (as : List Action) :
    AllStates (step cfg) Sys.Recoverable Sys.init as ↔
      AllSteps (step cfg) (fun s a _ => recordsFailure s a = false) Sys.init as := by
  constructor
  · intro hall pre a post u v has hpre ha
    by_contra hrec
    have hrec := Bool.eq_true_of_not_eq_false hrec
    have hv : exec (step cfg) Sys.init (pre ++ [a]) = some v :=
      exec_concat_iff.mpr ⟨u, hpre, ha⟩
    refine not_recoverable_of_recordsFailure (ok_of_exec hpre) ha hrec ?_
    exact hall (pre ++ [a]) post v (by rw [has, List.append_assoc, List.singleton_append]) hv
  · rintro hall pre post u rfl hpre
    have hinit : Sys.init.Recoverable := by
      intro r hr
      cases hr
    refine (hall.of_append.exec_invariant (I := fun s => s.Ok ∧ s.Recoverable) ?_
      ⟨ok_init, hinit⟩ hpre).2
    rintro s a s' ⟨hok, hrec⟩ hstep hnot
    exact ⟨step_ok s a s' hok hstep, step_recoverable hok hrec hstep hnot⟩

/-- The worker in slot `0` runs the sample job, the handler fails, and the worker crashes
after the first write of `scheduleRetry`. -/
def crashDuringRetry : List Action :=
  enqueueSample ++ [claimSample 0 1 0] ++ runClaimed 0 0 ++
    workerActs 0 [.finish (.error ⟨"connection refused", false⟩ 0 second), .read, .write 0,
      .crash]

/-- After that crash the job is `FAILED` and nobody holds it. -/
theorem crashDuringRetry_strands :
    ∃ s, exec (step ⟨.reject, 5⟩) Sys.init crashDuringRetry = some s ∧
      ¬ s.Recoverable ∧ (s.workers 0).pc = .done := by
  obtain ⟨s, hs, hrow⟩ := (Option.any_eq_true _ _).mp
    (show (exec (step ⟨.reject, 5⟩) Sys.init crashDuringRetry).any
      (fun s => (s.db.rows.any fun r => r.state = .failed) && decide ((s.workers 0).pc = .done)) =
        true by decide +kernel)
  rw [Bool.and_eq_true, List.any_eq_true] at hrow
  obtain ⟨⟨r, hr, hstate⟩, hdone⟩ := hrow
  refine ⟨s, hs, ?_, of_decide_eq_true hdone⟩
  intro hrec
  exact (recoverable_iff ((ok_of_exec hs).2 r.id r (find?_of_mem hr))).mp (hrec r hr)
    (of_decide_eq_true hstate)

end Conduit
