import Conduit.Terminal

/-!
# Cancelling a Job before It Starts

A job that is cancelled before a worker begins to run it should not run. The two ways a copy
reaches the handler differ. A copy from Kafka is claimed under the lock, and the test of that
claim sees the `DEAD` row. A copy that the reconciler claimed is already `RUNNING`: `Run`
skips the claim, never looks at the store again, and starts the handler.

So the promise is kept if, once the cancel has returned, the copy does not pass the lock as a
claimed one while its row is `DEAD`, and no late write of a worker brings that row back to life.

## Main results

* `cancelOk_of_exec`: after a successful cancel the row is `DEAD`, unless it is revived.
* `not_executing_of_cancelled`: a copy whose `Run` begins after a successful cancel never
  reaches the handler.
-/

namespace Conduit

open KeyedTable Transition

/-- The row under `k` is `DEAD`. -/
def Sys.IsDead (s : Sys) (k : String) : Prop :=
  ∃ r, s.db.find? k = some r ∧ r.state = .dead

/-- The action lets the copy in slot `i` past the lock as a claimed one although its row is
`DEAD`. -/
def startsCancelled (i : ℕ) (s : Sys) : Action → Bool
  | .worker j (.acquire true) =>
    j = i && (s.workers i).job.state = .running &&
      (s.db.find? (s.workers i).job.id).any fun r => r.state = .dead
  | _ => false

/-- Once the cancel `c` of job `k` has returned nil, the action neither revives the row of the job
nor starts the copy in slot `i`. -/
def respectsCancel (c i : ℕ) (k : String) (s : Sys) (a : Action) : Bool :=
  s.cancels c = .returned k (.ok ()) → revivesRow k s a = false ∧ startsCancelled i s a = false

/-! ### The cancelled row -/

/-- A cancel that is about to write has found its row, and one of job `k` that succeeded has left
it `DEAD`. -/
def CancelCall.Ok (k : String) (s : Sys) : CancelCall → Prop
  | .write id => ∃ r, s.db.find? id = some r
  | .returned id (.ok ()) => id = k → s.IsDead k
  | _ => True

/-- A step that does not revive it keeps a `DEAD` row. -/
theorem step_isDead {cfg : Config} {s s' : Sys} {a : Action} {k : String} (hok : s.Ok)
    (hrev : revivesRow k s a = false) (h : step cfg s a = some s') (hdead : s.IsDead k) :
    s'.IsDead k := by
  obtain ⟨r, hfind, hstate⟩ := hdead
  obtain ⟨r', hfind', hchange⟩ := step_rowChange h hfind
  obtain rfl : r.id = k := key_of_find? hfind
  exact ⟨r', hfind', dead_of_rowChange hok.1 (hok.2 _ r hfind) hfind hstate hrev hchange⟩

/-- What is known of a cancel stays true while others act. -/
theorem CancelCall.Ok.step {cfg : Config} {s s' : Sys} {a : Action} {k : String}
    {call : CancelCall} (hok : s.Ok)
    (hrev : call = .returned k (.ok ()) → revivesRow k s a = false)
    (h : step cfg s a = some s') (hcall : call.Ok k s) : call.Ok k s' := by
  match call, hcall with
  | .idle, _ => trivial
  | .read _, _ => trivial
  | .returned _ (.error _), _ => trivial
  | .write id, ⟨r, hfind⟩ => exact ⟨_, step_find? h hfind⟩
  | .returned id (.ok ()), hdead =>
      rintro rfl
      exact step_isDead hok (hrev rfl) h (hdead rfl)

/-- A step of a cancel leaves it as it should be. -/
theorem cancelOk_of_cancelStep {cfg : Config} {s s' : Sys} {c : ℕ} {act : CancelAct}
    {db : Jobs} {k : String} {call : CancelCall} (h : step cfg s (.cancel c act) = some s')
    (hcancel : cancelStep cfg.nulls s.db (s.cancels c) act = some (db, call))
    (hok : (s.cancels c).Ok k s) : call.Ok k s' := by
  unfold cancelStep at hcancel
  split at hcancel
  case h_2 id hcall =>
    split at hcancel
    · rename_i hcheck
      cases hcancel
      obtain ⟨r, hfind, -, -⟩ := cancelJobCheck_eq_ok_iff.mp hcheck
      exact ⟨_, step_find? h hfind⟩
    · cases hcancel
      trivial
  case h_3 now id hcall =>
    cases hcancel
    rw [hcall] at hok
    obtain ⟨r, hfind⟩ := hok
    rintro rfl
    rw [← key_of_find? hfind] at hcall
    refine ⟨_, step_find? h hfind, ?_⟩
    rw [rowAfter_cancel hcall]
    rfl
  all_goals cases hcancel
  all_goals trivial

/-- Every step that does not revive the row keeps the cancel as it should be. -/
theorem step_cancelOk {cfg : Config} {s s' : Sys} {a : Action} {c : ℕ} {k : String} (hok : s.Ok)
    (hcancel : (s.cancels c).Ok k s)
    (hrev : s.cancels c = .returned k (.ok ()) → revivesRow k s a = false)
    (h : step cfg s a = some s') : (s'.cancels c).Ok k s' := by
  have hkept := hcancel.step hok hrev h
  cases step_sound h with
  | @cancel c' act db call hstep =>
      by_cases hc : c = c'
      · subst hc
        dsimp only
        rw [Function.update_self]
        exact cancelOk_of_cancelStep h hstep hcancel
      · dsimp only
        rw [Function.update_of_ne hc]
        exact hkept
  | _ => exact hkept

/-- In a run that does not revive it, the row of a job that was cancelled with success is
`DEAD`. -/
theorem cancelOk_of_exec {cfg : Config} {as : List Action} {s : Sys} {c i : ℕ} {k : String}
    (h : exec (step cfg) Sys.init as = some s)
    (hall : AllSteps (step cfg) (fun s a _ => respectsCancel c i k s a = true) Sys.init as) :
    (s.cancels c).Ok k s := by
  refine (hall.exec_invariant (I := fun s => s.Ok ∧ (s.cancels c).Ok k s) ?_
    ⟨ok_init, trivial⟩ h).2
  rintro s a s' ⟨hok, hcancel⟩ hstep hresp
  have hrev := fun hreturned => (of_decide_eq_true hresp hreturned).1
  exact ⟨step_ok s a s' hok hstep, step_cancelOk hok hcancel hrev hstep⟩

/-- A cancel that has returned stays so. -/
theorem step_cancel_returned {cfg : Config} {s s' : Sys} {a : Action} {c : ℕ} {k : String}
    {result : Except StoreError Unit} (h : step cfg s a = some s')
    (hreturned : s.cancels c = .returned k result) : s'.cancels c = .returned k result := by
  cases step_sound h with
  | @cancel c' act db call hstep =>
      have hne : c ≠ c' := by
        rintro rfl
        rw [hreturned] at hstep
        cases act <;> cases hstep
      exact (Function.update_of_ne hne _ _).trans hreturned
  | _ => exact hreturned

/-! ### The copy that begins after the cancel -/

/-- Where a worker can be that has begun and not passed the test of its claim. -/
def Pc.beforeStart : Pc → Bool
  | .entry | .sleeping | .breaker | .locking | .locked | .read .claim => true
  | .release _ | .unlock | .done => true
  | _ => false

/-- A worker that gives up has not started. -/
theorem beforeStart_giveUp (w : Worker) (reason : String) :
    (w.giveUp reason).pc.beforeStart = true := by
  rcases w.giveUp_cases reason with heq | ⟨heq, -⟩ <;> rw [heq] <;> rfl

/-- A worker whose row is `DEAD` does not start, unless it passes the lock with a claimed
copy. -/
theorem WorkerStep.beforeStart {cfg : Config} {db db' : Jobs} {w w' : Worker} {act : WorkerAct}
    {r : Row} (h : WorkerStep cfg db w act db' w') (hpc : w.pc.beforeStart = true)
    (hfind : db.find? w.job.id = some r) (hdead : r.state = .dead)
    (hlock : act = .acquire true → w.job.state ≠ .running) : w'.pc.beforeStart = true := by
  cases h with
  | refused => exact beforeStart_giveUp w _
  | notLocked => exact beforeStart_giveUp w _
  | lockedClaimed _ hstate => exact absurd hstate (hlock rfl)
  | checked _ hcheck =>
      obtain ⟨r', hfind', -, hcan⟩ := updateJobCheck_eq_ok_iff.mp hcheck
      rw [hfind] at hfind'
      obtain rfl := Option.some.inj hfind'
      rw [canTransition_of_terminal (by rw [hdead]; rfl)] at hcan
      cases hcan
  | submitted h => rw [h] at hpc; cases hpc
  | written h => rw [h] at hpc; cases hpc
  | started h => rw [h] at hpc; cases hpc
  | noHandler h => rw [h] at hpc; cases hpc
  | succeeded h => rw [h] at hpc; cases hpc
  | failed h => rw [h] at hpc; cases hpc
  | renewed => exact hpc
  | notRenewed => exact hpc
  | renewFailed => exact hpc
  | _ => rfl

/-- The copy of job `k` in slot `i` has begun after the job was cancelled by the call `c`. -/
structure BegunCancelled (c i : ℕ) (k : String) (s : Sys) : Prop where
  ok : s.Ok
  cancelled : s.cancels c = .returned k (.ok ())
  dead : s.IsDead k
  job : (s.workers i).job.id = k
  before : (s.workers i).pc.beforeStart = true

/-- Such a copy does not start while the steps respect the cancel. -/
theorem step_begunCancelled {cfg : Config} {c i : ℕ} {k : String} (s : Sys) (a : Action)
    (s' : Sys) (hbegun : BegunCancelled c i k s) (h : step cfg s a = some s')
    (hresp : respectsCancel c i k s a = true) : BegunCancelled c i k s' := by
  obtain ⟨hok, hcancelled, hdead, hid, hpc⟩ := hbegun
  obtain ⟨hrev, hstart⟩ := of_decide_eq_true hresp hcancelled
  have hworker : (s'.workers i).job.id = k ∧ (s'.workers i).pc.beforeStart = true := by
    rcases step_worker_used h (Pc.ne_idle rfl hpc) with heq | ⟨act, rfl, hmove⟩
    · rw [heq]
      exact ⟨hid, hpc⟩
    · obtain ⟨r, hfind, hstate⟩ := hdead
      rw [← hid] at hfind
      refine ⟨hmove.job_id.trans hid, hmove.beforeStart hpc hfind hstate ?_⟩
      rintro rfl hrunning
      simp [startsCancelled, hrunning, hfind, hstate] at hstart
  exact ⟨step_ok s a s' hok h, step_cancel_returned h hcancelled, step_isDead hok hrev h hdead,
    hworker.1, hworker.2⟩

/-- **Cancelled before start.** Let a cancel of job `k` have returned nil when the worker in slot
`i` begins `Run` on a copy of `k`. If all steps of the run respect that cancel, then that `Run`
does not call the handler, at any later moment. -/
theorem not_executing_of_cancelled {cfg : Config} {pre post : List Action} {u t : Sys}
    {c i : ℕ} {k : String} (hpre : exec (step cfg) Sys.init pre = some u)
    (hcancel : u.cancels c = .returned k (.ok ())) (hid : (u.workers i).job.id = k)
    (hpost : exec (step cfg) u (.worker i .begin :: post) = some t)
    (hall : AllSteps (step cfg) (fun s a _ => respectsCancel c i k s a = true) Sys.init
      (pre ++ .worker i .begin :: post)) : (t.workers i).pc ≠ .executing := by
  have hok := ok_of_exec hpre
  have hdead : u.IsDead k := by
    have hcall := cancelOk_of_exec hpre hall.of_append
    rw [hcancel] at hcall
    exact hcall rfl
  obtain ⟨v, hv, hrest⟩ := exec_cons_iff.mp hpost
  have hsteps := hall.drop hpre
  have hbegun : BegunCancelled c i k v := by
    have hmove := step_worker_self hv
    refine ⟨step_ok u _ v hok hv, step_cancel_returned hv hcancel, step_isDead hok rfl hv hdead,
      hmove.job_id.trans hid, ?_⟩
    rw [hmove.pc_of_begin]
    rfl
  have hrest' : AllSteps (step cfg) (fun s a _ => respectsCancel c i k s a = true) v post := by
    have hsteps' : AllSteps (step cfg) (fun s a _ => respectsCancel c i k s a = true) u
        ([.worker i .begin] ++ post) := hsteps
    exact hsteps'.drop (by rw [exec_singleton, hv])
  have hpc := (hrest'.exec_invariant step_begunCancelled hbegun hrest).before
  intro hexec
  rw [hexec] at hpc
  cases hpc

/-- A cancel of the sample job, from start to end. -/
def cancelSample : List Action :=
  [.cancel 0 (.start sampleId), .cancel 0 .read, .cancel 0 (.write 0)]

/-- The sample job is cancelled while it waits, then Kafka delivers it: the copy is stopped by
the test of its claim. -/
theorem not_executing_delivered :
    ∃ u t, exec (step ⟨.empty, 5⟩) Sys.init (enqueueSample ++ cancelSample ++ [.deliver 0 0]) =
        some u ∧
      u.cancels 0 = .returned sampleId (.ok ()) ∧
      exec (step ⟨.empty, 5⟩) u (.worker 0 .begin :: workerActs 0 [.checkDue 0, .allow true,
        .acquire true, .prepare 0 (300 * second) (sampleRandom 1), .read]) = some t ∧
      (t.workers 0).pc ≠ .executing := by
  obtain ⟨u, hu, h⟩ := (Option.any_eq_true _ _).mp
    (show (exec (step ⟨.empty, 5⟩) Sys.init
        (enqueueSample ++ cancelSample ++ [.deliver 0 0])).any (fun u =>
          decide (u.cancels 0 = .returned sampleId (.ok ()) ∧ (u.workers 0).job.id = sampleId) &&
          (exec (step ⟨.empty, 5⟩) u (.worker 0 .begin :: workerActs 0 [.checkDue 0, .allow true,
            .acquire true, .prepare 0 (300 * second) (sampleRandom 1), .read])).isSome) = true by
      decide +kernel)
  rw [Bool.and_eq_true, decide_eq_true_eq, Option.isSome_iff_exists] at h
  obtain ⟨⟨hcancel, hid⟩, t, ht⟩ := h
  exact ⟨u, t, hu, hcancel, ht, not_executing_of_cancelled hu hcancel hid ht
    (allSteps_of_checkSteps (by decide +kernel))⟩

/-- The sample job is claimed by a reconciler and cancelled with success while its copy waits
in the pool. The copy then runs. -/
theorem executing_after_cancel :
    ∃ u t, exec (step ⟨.reject, 5⟩) Sys.init (enqueueSample ++
        [claimSample 0 1 0, .worker 0 (.submit true)] ++ cancelSample) = some u ∧
      u.cancels 0 = .returned sampleId (.ok ()) ∧ (u.workers 0).job.id = sampleId ∧
      exec (step ⟨.reject, 5⟩) u (.worker 0 .begin ::
        workerActs 0 [.checkDue 0, .allow true, .acquire true, .exec]) = some t ∧
      (t.workers 0).pc = .executing := by
  obtain ⟨u, hu, h⟩ := (Option.any_eq_true _ _).mp
    (show (exec (step ⟨.reject, 5⟩) Sys.init (enqueueSample ++
        [claimSample 0 1 0, .worker 0 (.submit true)] ++ cancelSample)).any (fun u =>
          decide (u.cancels 0 = .returned sampleId (.ok ()) ∧ (u.workers 0).job.id = sampleId) &&
          (exec (step ⟨.reject, 5⟩) u (.worker 0 .begin ::
            workerActs 0 [.checkDue 0, .allow true, .acquire true, .exec])).any fun t =>
              (t.workers 0).pc = .executing) = true by decide +kernel)
  rw [Bool.and_eq_true, decide_eq_true_eq, Option.any_eq_true] at h
  obtain ⟨⟨hcancel, hid⟩, t, ht, hpc⟩ := h
  exact ⟨u, t, hu, hcancel, hid, ht, of_decide_eq_true hpc⟩

end Conduit
