import Conduit.Claim
import Conduit.Idempotency
import Conduit.Terminal

/-!
# Shutdown

Shutdown cancels the context the worker pool was started with. The same context goes to the
handler, to the lease renewal and to every store call of `Run`, so from then on a worker of the
pool can still finish its handler but can no longer record the outcome: `UpdateJob` fails, the
error is logged, and `Run` returns. `Pool.Stop` waits for the `Run`s in progress and returns nil
once they have returned, whether or not they recorded anything.

A run with a shutdown is a run `pre ++ post` with the cancellation at any point between the two
parts. A job whose handler returned nil, and whose claim no cancel, requeue or release has taken
away, is `COMPLETED` when `Stop` returns exactly when its worker was past its last store call at
the cancellation. Otherwise the row is left `RUNNING` under the worker's token, and the job is
executed again when its lease expires.

## Main results

* `scannable_of_exec`: the row of a claimed copy scans, whatever the driver does with `NULL`.
* `runsUnder_of_exec`: a worker that has not recorded its outcome holds its row.
* `recorded_of_exec`: without a shutdown, every job whose handler returned nil is recorded.
* `recorded_iff_settled`: with a shutdown, exactly those are whose worker was already past its
  last store call.
-/

namespace Conduit

open KeyedTable Transition

/-! ### Where a copy is -/

/-- The program counters of a `Run` past its last store call. -/
def Pc.settled : Pc → Bool
  | .unlock | .done => true
  | _ => false

/-- The program counters after a handler that returned nil. -/
def Pc.succeeded : Pc → Bool
  | .read .complete | .write .complete | .unlock | .done => true
  | _ => false

/-- The program counters of a copy that no `Run` is working on. The release may be that of the
reconciler. -/
def Pc.returned : Pc → Bool
  | .idle | .claimed | .queued | .release _ | .done => true
  | _ => false

/-- The program counters of a claimed copy whose outcome is not recorded yet; up to the lock
only a copy that is `RUNNING` is claimed. -/
def Pc.holds (running : Bool) : Pc → Bool
  | .claimed | .ready | .executing | .read .complete | .write .complete => true
  | .queued | .entry | .sleeping | .breaker | .locking => running
  | _ => false

/-- The copy is claimed and its outcome is not recorded yet. -/
def Worker.holds (w : Worker) : Bool := w.pc.holds (w.job.state = .running)

/-- The copy has been claimed, or its `Run` is over. -/
def Worker.pastClaim (w : Worker) : Bool := w.holds || w.pc.settled

/-- The handler of the worker in slot `i` has returned nil. -/
def Succeeded (i : ℕ) (as : List Action) : Prop :=
  ∃ now, Action.worker i (.finish (.ok now)) ∈ as

section Moves

variable {cfg : Config} {db db' : Jobs} {w w' : Worker} {act : WorkerAct}

/-- A worker holds its claim after a move if it did before, or if the move wrote the claim. -/
theorem WorkerStep.holds (h : WorkerStep cfg db w act db' w') (hw : w'.holds = true) :
    (w.holds = true ∧ w'.job.leaseToken = w.job.leaseToken ∧ ∀ now, act ≠ .write now) ∨
      ∃ now, act = .write now ∧ w.pc = .write .claim ∧
        (updateJobExec now w.job db).2 = .ok () ∧ w'.job = w.job := by
  have hgiveUp : ∀ reason, (w.giveUp reason).holds = false := by
    intro reason
    rcases w.giveUp_cases reason with heq | ⟨heq, -⟩ <;> rw [heq] <;> rfl
  have hfailed : ∀ err nextRun, (w.failed cfg err nextRun).holds = false := by
    intro err nextRun
    rcases w.failed_cases cfg err nextRun with heq | heq <;> rw [heq] <;> rfl
  cases h with
  | refused => rw [hgiveUp] at hw; cases hw
  | notLocked => rw [hgiveUp] at hw; cases hw
  | noHandler => rw [hfailed] at hw; cases hw
  | failed => rw [hfailed] at hw; cases hw
  | submitted hpc => exact .inl ⟨by rw [Worker.holds, hpc]; rfl, rfl, by simp⟩
  | begun hpc => exact .inl ⟨by rw [Worker.holds, hpc]; exact hw, rfl, by simp⟩
  | due hpc => exact .inl ⟨by rw [Worker.holds, hpc]; exact hw, rfl, by simp⟩
  | slept hpc => exact .inl ⟨by rw [Worker.holds, hpc]; exact hw, rfl, by simp⟩
  | woke hpc => exact .inl ⟨by rw [Worker.holds, hpc]; exact hw, rfl, by simp⟩
  | allowed hpc => exact .inl ⟨by rw [Worker.holds, hpc]; exact hw, rfl, by simp⟩
  | lockedClaimed hpc hstate => exact .inl ⟨by rw [Worker.holds, hpc, hstate]; rfl, rfl, by simp⟩
  | @checked p hpc =>
      cases p with
      | complete => exact .inl ⟨by rw [Worker.holds, hpc]; rfl, rfl, by simp⟩
      | _ => cases hw
  | @written now p hpc hok =>
      cases p with
      | claim => exact .inr ⟨now, rfl, hpc, hok, rfl⟩
      | _ => cases hw
  | started hpc => exact .inl ⟨by rw [Worker.holds, hpc]; rfl, rfl, by simp⟩
  | succeeded hpc => exact .inl ⟨by rw [Worker.holds, hpc]; rfl, rfl, by simp⟩
  | renewed => exact .inl ⟨hw, rfl, by simp⟩
  | notRenewed => exact .inl ⟨hw, rfl, by simp⟩
  | renewFailed => exact .inl ⟨hw, rfl, by simp⟩
  | _ => cases hw

/-- A worker that holds its claim carries a token. -/
theorem Worker.leaseToken_ne_of_holds (hok : w.JobOk) (hw : w.holds = true) :
    w.job.leaseToken ≠ "" := by
  rw [Worker.holds] at hw
  rw [Worker.JobOk] at hok
  cases hpc : w.pc with
  | claimed | ready | executing =>
      rw [hpc] at hok
      exact hok.leaseToken
  | queued | entry | sleeping | breaker | locking =>
      rw [hpc] at hok hw
      exact (claimedJob_of_running hok (of_decide_eq_true hw)).leaseToken
  | read p | write p =>
      rw [hpc] at hok
      exact hok.leaseToken_ne
  | _ =>
      rw [hpc] at hw
      cases hw

/-- After its handler returned nil, a worker holds its claim or is past its last store call. -/
theorem Worker.holds_or_settled (hw : w.pc.succeeded = true) :
    w.holds = true ∨ w.pc.settled = true := by
  rw [Worker.holds]
  cases hpc : w.pc with
  | unlock | done => exact .inr rfl
  | read p | write p =>
      rw [hpc] at hw
      cases p with
      | complete => exact .inl rfl
      | _ => cases hw
  | _ =>
      rw [hpc] at hw
      cases hw

/-- A worker past its last store call stays there. -/
theorem WorkerStep.settled (h : WorkerStep cfg db w act db' w') (hw : w.pc.settled = true) :
    w'.pc.settled = true := by
  cases h with
  | renewed => exact hw
  | notRenewed => exact hw
  | renewFailed => exact hw
  | unlocked => rfl
  | crashed => rfl
  | _ => simp_all [Pc.settled]

/-- A worker whose handler has returned nil keeps its token, and gets past its last store call
through the write of `COMPLETED`, a test that fails, a store call that fails or a crash. -/
theorem WorkerStep.of_succeeded (h : WorkerStep cfg db w act db' w')
    (hw : w.pc.succeeded = true) :
    w'.pc.succeeded = true ∧ w'.job.leaseToken = w.job.leaseToken ∧
      (w'.pc.settled = true → w.pc.settled = true ∨ act = .storeFail ∨ act = .crash ∨
        (w.pc = .read .complete ∧ updateJobCheck cfg.nulls w.job db ≠ .ok ()) ∨
        ∃ now, act = .write now ∧ w.pc = .write .complete) := by
  cases h with
  | @checked p hpc =>
      rw [hpc] at hw
      cases p with
      | complete => exact ⟨rfl, rfl, fun h => by cases h⟩
      | _ => cases hw
  | @notChecked p hpc herr =>
      rw [hpc] at hw
      cases p with
      | complete => exact ⟨rfl, rfl, fun _ => .inr (.inr (.inr (.inl ⟨hpc, herr⟩)))⟩
      | _ => cases hw
  | @written now p hpc =>
      rw [hpc] at hw
      cases p with
      | complete => exact ⟨rfl, rfl, fun _ => .inr (.inr (.inr (.inr ⟨now, rfl, hpc⟩)))⟩
      | _ => cases hw
  | @notWritten now p hpc =>
      rw [hpc] at hw
      cases p with
      | complete => exact ⟨rfl, rfl, fun _ => .inr (.inr (.inr (.inr ⟨now, rfl, hpc⟩)))⟩
      | _ => cases hw
  | unlocked hpc => exact ⟨rfl, rfl, fun _ => .inl (by rw [hpc]; rfl)⟩
  | readFailed => exact ⟨rfl, rfl, fun _ => .inr (.inl rfl)⟩
  | writeFailed => exact ⟨rfl, rfl, fun _ => .inr (.inl rfl)⟩
  | crashed => exact ⟨rfl, rfl, fun _ => .inr (.inr (.inl rfl))⟩
  | renewed => exact ⟨hw, rfl, .inl⟩
  | notRenewed => exact ⟨hw, rfl, .inl⟩
  | renewFailed => exact ⟨hw, rfl, .inl⟩
  | _ => simp_all [Pc.succeeded]

/-- A handler that returns nil was in progress. -/
theorem WorkerStep.of_finish_ok {now : Time}
    (h : WorkerStep cfg db w (.finish (.ok now)) db' w') :
    w.pc = .executing ∧ w'.pc = .read .complete ∧ w'.job.leaseToken = w.job.leaseToken := by
  cases h with
  | succeeded hpc => exact ⟨hpc, rfl, rfl⟩

end Moves

/-! ### Claims that are taken away -/

/-- The action releases the claim of job `k`. -/
def releasesClaim (k : String) (s : Sys) : Action → Bool
  | .worker i (.releaseClaim _) => (s.db.find? k).any (holdsClaim (s.workers i).job)
  | _ => false

/-- The action takes the claim of job `k` away, by cancel, requeue or release. -/
def takesClaim (k : String) (s : Sys) (a : Action) : Bool :=
  cancelsRow k s a || requeues k s a || releasesClaim k s a

/-- The action takes the claim of the worker in slot `i` away. -/
def losesClaim (i : ℕ) (s : Sys) (a : Action) : Bool :=
  (s.workers i).pastClaim && takesClaim (s.workers i).job.id s a

/-- The outcome of the worker in slot `i` is in the store: its job is `COMPLETED`. -/
def Sys.Recorded (s : Sys) (i : ℕ) : Prop :=
  ∃ r, s.db.find? (s.workers i).job.id = some r ∧ r.state = .completed

section Step

variable {cfg : Config} {as : List Action} {s s' : Sys} {a : Action} {i : ℕ}

theorem takesClaim_of_pastClaim (hw : (s.workers i).pastClaim = true)
    (hkept : losesClaim i s a = false) : takesClaim (s.workers i).job.id s a = false := by
  rwa [losesClaim, hw, Bool.true_and] at hkept

/-- **A held row.** A row stays `RUNNING` under the token of a worker as long as the worker does
not write and the claim is not taken away. -/
theorem Sys.RunsUnder.step (hinv : s.Inv) (htokens : TokensOk as s) (h : step cfg s a = some s')
    (hne : (s.workers i).job.leaseToken ≠ "")
    (hrun : s.RunsUnder (s.workers i).job.id (s.workers i).job.leaseToken)
    (hown : ∀ now, a ≠ .worker i (.write now))
    (hnot : takesClaim (s.workers i).job.id s a = false) :
    s'.RunsUnder (s.workers i).job.id (s.workers i).job.leaseToken := by
  obtain ⟨r, hfind, hstate, htoken⟩ := hrun
  simp only [takesClaim, Bool.or_eq_false_iff] at hnot
  obtain ⟨⟨hcancel, hrequeue⟩, hrelease⟩ := hnot
  obtain ⟨r', hfind', hchange⟩ := step_rowChange h hfind
  have hid : r.id = (s.workers i).job.id := key_of_find? hfind
  rw [← hid] at hfind' hcancel hrequeue ⊢
  cases hchange with
  | same => exact ⟨r, hfind', hstate, htoken⟩
  | cancelled hcall => simp [cancelsRow, hcall] at hcancel
  | requeued =>
      refine ⟨r, ?_, hstate, htoken⟩
      rw [step_find? h (find?_id hfind), rowAfter_requeue hrequeue]
  | claimed _ hpending =>
      rw [hstate] at hpending
      cases hpending
  | @updated j p now hpc hmatch =>
      rcases token_of_updateMatches (hinv.phase hpc) hmatch with hsome | ⟨-, hpending, -⟩
      · -- The writer carries the same token, so it is the worker itself.
        rw [htoken] at hsome
        by_cases hij : i = j
        · subst hij
          exact absurd rfl (hown now)
        · exact absurd (Option.some.inj hsome) (htokens.distinct i j hij hne)
      · rw [hstate] at hpending
        cases hpending
  | renewed => exact ⟨_, hfind', hstate, htoken⟩
  | released _ hmatch => simp [releasesClaim, hfind, hmatch] at hrelease

/-- A recorded outcome stays, unless the job is cancelled. -/
theorem Sys.Recorded.step (hok : s.Ok) (h : step cfg s a = some s') (hdone : s.Recorded i)
    (hid : (s'.workers i).job.id = (s.workers i).job.id)
    (hnot : takesClaim (s.workers i).job.id s a = false) : s'.Recorded i := by
  obtain ⟨r, hfind, hstate⟩ := hdone
  simp only [takesClaim, Bool.or_eq_false_iff] at hnot
  obtain ⟨r', hfind', hchange⟩ := step_rowChange h hfind
  refine ⟨r', by rw [hid]; exact hfind', ?_⟩
  refine completed_of_rowChange hok.1 (hok.2 _ r hfind) hstate ?_ hchange
  rw [key_of_find? hfind]
  exact hnot.1.1

/-- A slot in use keeps its job. -/
theorem step_job_id (h : step cfg s a = some s') (hw : (s.workers i).pc ≠ .idle) :
    (s'.workers i).job.id = (s.workers i).job.id := by
  rcases step_worker_used h hw with heq | ⟨act, -, hmove⟩
  · rw [heq]
  · exact hmove.job_id

end Step

/-- **Holders.** In every run with distinct tokens, a worker that has claimed its copy and not
recorded an outcome holds its row, unless the claim was taken away. -/
theorem runsUnder_of_exec {cfg : Config} {as : List Action} {s : Sys} {i : ℕ}
    (h : exec (step cfg) Sys.init as = some s) (hnodup : (drawnTokens as).Nodup)
    (hkept : AllSteps (step cfg) (fun s a _ => losesClaim i s a = false) Sys.init as)
    (hw : (s.workers i).holds = true) :
    s.RunsUnder (s.workers i).job.id (s.workers i).job.leaseToken := by
  refine exec_history (H := fun as s => (drawnTokens as).Nodup →
    AllSteps (step cfg) (fun s a _ => losesClaim i s a = false) Sys.init as →
    (s.workers i).holds = true →
    s.RunsUnder (s.workers i).job.id (s.workers i).job.leaseToken) ?_ ?_ h hnodup hkept hw
  · intro _ _ hw
    cases hw
  · intro as u a v hu ih hstep hnodup hkept hw
    have hinv := inv_of_exec hu
    have htokens := tokensOk_of_exec hu (nodup_of_append hnodup)
    -- The claim was there before the step, and the step is not the worker's own write.
    have hold : (u.workers i).holds = true → (∀ now, a ≠ .worker i (.write now)) →
        v.RunsUnder (u.workers i).job.id (u.workers i).job.leaseToken := by
      intro hw hown
      have hne := Worker.leaseToken_ne_of_holds (hinv.workers i) hw
      refine (ih (nodup_of_append hnodup) hkept.of_append hw).step hinv htokens hstep hne hown ?_
      exact takesClaim_of_pastClaim (by simp [Worker.pastClaim, hw])
        (hkept as a [] u v rfl hu hstep)
    cases step_workerChange hstep i with
    | same heq hother =>
        rw [heq] at hw ⊢
        exact hold hw fun now => hother _
    | @claimed call r _ hsel heq =>
        rw [heq]
        obtain ⟨hfind, -⟩ := selectDue_spec hsel
        have hfind' := step_find? hstep hfind
        rw [rowAfter_claimNext hsel i] at hfind'
        exact ⟨(claimEdit call).apply r, hfind', rfl, rfl⟩
    | delivered _ hjob heq =>
        rw [heq] at hw
        have hstate := (hinv.kafka _ hjob).viaJson.state
        simp [Worker.holds, Pc.holds, hstate] at hw
    | moved hmove =>
        rcases hmove.holds hw with ⟨hw, htoken, hact⟩ | ⟨now, rfl, hpc, hok, hjob⟩
        · rw [hmove.job_id, htoken]
          refine hold hw ?_
          rintro now heq
          cases heq
          exact hact now rfl
        · rw [hjob]
          exact (write_wins hinv htokens hstep ⟨hpc, hok, rfl, rfl⟩).2

/-! ### Rows that scan -/

/-- The row of the copy in slot `i` scans, as far as its idempotency key goes. -/
def Sys.Scannable (nulls : NullText) (s : Sys) (i : ℕ) : Prop :=
  nulls = .empty ∨ ∃ key, KeyedBy s.db (s.workers i).job.id (some key)

/-- A row that scanned has an idempotency key, or needs none. -/
theorem keyedBy_of_texts {nulls : NullText} {db : Jobs} {k : String} {r : Row}
    (hfind : db.find? k = some r) (htexts : nulls = .empty ∨ r.TextsPresent) :
    nulls = .empty ∨ ∃ key, KeyedBy db k (some key) := by
  refine htexts.imp_right ?_
  intro htexts
  obtain ⟨key, hkey⟩ := Option.isSome_iff_exists.mp htexts.1
  exact ⟨key, r, hfind, hkey⟩

/-- A copy that `ClaimNextJob` returned was scanned. -/
theorem step_claimNext {cfg : Config} {s s' : Sys} {i : ℕ} {call : ClaimCall} {r : Row}
    (h : step cfg s (.claimNext i call) = some s') (hsel : selectDue call s.db = some r)
    (hw : (s'.workers i).pc ≠ .idle) :
    cfg.nulls = .empty ∨ ((claimEdit call).apply r).TextsPresent := by
  cases step_sound h with
  | claimed _ hsel' hscan =>
      rw [hsel] at hsel'
      obtain rfl := Option.some.inj hsel'
      exact (scanJob_eq_ok_iff.mp hscan).2
  | claimLost hidle => exact absurd hidle hw
  | nothingDue hidle => exact absurd hidle hw

/-- A worker that is about to write its claim has read its row. -/
theorem WorkerStep.write_claim {cfg : Config} {db db' : Jobs} {w w' : Worker} {act : WorkerAct}
    (h : WorkerStep cfg db w act db' w') (hw : w'.pc = .write .claim) :
    w.pc = .write .claim ∨ updateJobCheck cfg.nulls w.job db = .ok () := by
  cases h with
  | checked _ hok => exact .inr hok
  | renewed => exact .inl hw
  | notRenewed => exact .inl hw
  | renewFailed => exact .inl hw
  | refused => rcases w.giveUp_cases _ with heq | ⟨heq, -⟩ <;> rw [heq] at hw <;> cases hw
  | notLocked => rcases w.giveUp_cases _ with heq | ⟨heq, -⟩ <;> rw [heq] at hw <;> cases hw
  | noHandler => rcases w.failed_cases cfg _ _ with heq | heq <;> rw [heq] at hw <;> cases hw
  | failed => rcases w.failed_cases cfg _ _ with heq | heq <;> rw [heq] at hw <;> cases hw
  | @written _ p => cases p <;> cases hw
  | _ => cases hw

/-- The row of a claimed copy scans: the claim itself has scanned it. -/
theorem scannable_of_exec {cfg : Config} {as : List Action} {s : Sys} {i : ℕ}
    (h : exec (step cfg) Sys.init as = some s)
    (hw : (s.workers i).holds = true ∨ (s.workers i).pc = .write .claim) :
    s.Scannable cfg.nulls i := by
  refine exec_history (H := fun _ s => (s.workers i).holds = true ∨
    (s.workers i).pc = .write .claim → s.Scannable cfg.nulls i) ?_ ?_ h hw
  · rintro (hw | hw) <;> cases hw
  · intro as u a v hu ih hstep hw
    have hkeep : u.Scannable cfg.nulls i → (v.workers i).job.id = (u.workers i).job.id →
        v.Scannable cfg.nulls i := by
      rintro hscan hid
      rw [Sys.Scannable, hid]
      exact hscan.imp_right fun ⟨key, hkey⟩ => ⟨key, hkey.step hstep⟩
    cases step_workerChange hstep i with
    | same heq =>
        rw [heq] at hw
        exact hkeep (ih hw) (by rw [heq])
    | @claimed call r _ hsel heq =>
        have htexts := step_claimNext hstep hsel (by simp [heq])
        obtain ⟨hfind, -⟩ := selectDue_spec hsel
        have hfind' := step_find? hstep hfind
        rw [rowAfter_claimNext hsel i] at hfind'
        rw [Sys.Scannable, heq]
        exact keyedBy_of_texts hfind' htexts
    | delivered _ hjob heq =>
        have hstate := ((inv_of_exec hu).kafka _ hjob).viaJson.state
        rw [heq] at hw
        simp [Worker.holds, Pc.holds, hstate] at hw
    | moved hmove =>
        refine hkeep ?_ hmove.job_id
        rcases hw with hw | hw
        · rcases hmove.holds hw with ⟨hw, -⟩ | ⟨now, -, hpc, -⟩
          · exact ih (.inl hw)
          · exact ih (.inr hpc)
        · rcases hmove.write_claim hw with hpc | hok
          · exact ih (.inr hpc)
          · obtain ⟨r, hfind, htexts, -⟩ := updateJobCheck_eq_ok_iff.mp hok
            exact keyedBy_of_texts hfind htexts

/-- The test of `UpdateJob` lets a worker that holds its row record its success. -/
theorem updateJobCheck_of_runsUnder {cfg : Config} {s : Sys} {i : ℕ} (hok : s.Ok)
    (hpc : (s.workers i).pc = .read .complete) (hscan : s.Scannable cfg.nulls i)
    (hrun : s.RunsUnder (s.workers i).job.id (s.workers i).job.leaseToken) :
    updateJobCheck cfg.nulls (s.workers i).job s.db = .ok () := by
  obtain ⟨r, hfind, hstate, htoken⟩ := hrun
  have hjob : Phase.complete.JobOk (s.workers i).job := by
    have hjob := hok.1.workers i
    rw [Worker.JobOk, hpc] at hjob
    exact hjob
  refine updateJobCheck_eq_ok_iff.mpr ⟨r, hfind, ?_, ?_⟩
  · refine hscan.imp_right ?_
    rintro ⟨key, r', hfind', hkey⟩
    rw [hfind] at hfind'
    obtain rfl := Option.some.inj hfind'
    obtain ⟨hcron, herror⟩ := (hok.2 _ r hfind).texts
    exact ⟨by rw [hkey]; rfl, hcron, herror, by rw [htoken]; rfl⟩
  · rw [hstate, hjob.state_eq]
    rfl

/-- The `UPDATE` of a worker that holds its row records its success. -/
theorem recorded_of_write {cfg : Config} {s s' : Sys} {i : ℕ} {now : Time} (hinv : s.Inv)
    (h : step cfg s (.worker i (.write now)) = some s')
    (hpc : (s.workers i).pc = .write .complete)
    (hrun : s.RunsUnder (s.workers i).job.id (s.workers i).job.leaseToken) : s'.Recorded i := by
  obtain ⟨r, hfind, -, htoken⟩ := hrun
  have hmatch : updateMatches (s.workers i).job r = true :=
    updateMatches_of_token hfind htoken
  have hfind' := step_find? h hfind
  rw [rowAfter_write hpc hmatch] at hfind'
  exact ⟨_, by rw [(step_worker_self h).job_id]; exact hfind', (hinv.phase hpc).state_eq⟩

/-! ### Runs with a shutdown -/

/-- Before the shutdown Postgres answers the calls of the pool's workers, and none of them
crashes. -/
def undisturbed (pool : ℕ → Bool) : Action → Bool
  | .worker i .storeFail | .worker i .renewFail | .worker i .crash => !pool i
  | _ => true

/-- Once the context is cancelled, no store call of the pool's workers has an effect; none of
them crashes. -/
def contextCancelled (pool : ℕ → Bool) : Action → Bool
  | .worker i .read | .worker i (.write _) | .worker i (.renew _ _ _)
  | .worker i (.releaseClaim _) | .worker i .crash => !pool i
  | _ => true

/-- A run in which the context of the pool is cancelled after `pre`, in the state `u`, and
`Pool.Stop` returns nil after `post`, in the state `s`. The pool's workers are in the slots
that `pool` tells; all other slots belong to other servers. -/
structure ShutdownRun (cfg : Config) (pool : ℕ → Bool) (pre post : List Action) (u s : Sys) :
    Prop where
  before : exec (step cfg) Sys.init pre = some u
  after : exec (step cfg) u post = some s
  tokens : (drawnTokens (pre ++ post)).Nodup
  reachable : ∀ a ∈ pre, undisturbed pool a = true
  cancelled : ∀ a ∈ post, contextCancelled pool a = true
  /-- `Stop` waits for every `Run` in progress. -/
  stopped : ∀ i, pool i = true → (s.workers i).pc.returned = true

section Runs

variable {cfg : Config} {i : ℕ}

/-- One more action: the handler had returned before, or returns now. -/
theorem succeeded_concat {as : List Action} {a : Action} (h : Succeeded i (as ++ [a])) :
    Succeeded i as ∨ ∃ now, a = .worker i (.finish (.ok now)) := by
  obtain ⟨now, hmem⟩ := h
  rcases List.mem_append.mp hmem with hold | hnew
  · exact .inl ⟨now, hold⟩
  · exact .inr ⟨now, (List.mem_singleton.mp hnew).symm⟩

/-- After a handler that returned nil, `Run` records the success and returns. -/
theorem succeeded_of_exec {as : List Action} {s : Sys}
    (h : exec (step cfg) Sys.init as = some s) (hok : Succeeded i as) :
    (s.workers i).pc.succeeded = true := by
  refine exec_history (H := fun as s => Succeeded i as → (s.workers i).pc.succeeded = true)
    ?_ ?_ h hok
  · rintro ⟨now, hmem⟩
    cases hmem
  · intro as u a v hu ih hstep hok
    rcases succeeded_concat hok with hold | ⟨now, rfl⟩
    · exact step_pc_kept rfl (fun hmove hpc => (hmove.of_succeeded hpc).1) hstep (ih hold)
    · rw [(step_worker_self hstep).of_finish_ok.2.1]
      rfl

/-- A worker past its last store call stays there. -/
theorem settled_of_exec {as : List Action} {u s : Sys} (h : exec (step cfg) u as = some s)
    (hu : (u.workers i).pc.settled = true) : (s.workers i).pc.settled = true := by
  refine exec_invariant (I := fun s => (s.workers i).pc.settled = true) ?_ hu h
  intro s a s' hs hstep
  exact step_pc_kept rfl (fun hmove hpc => hmove.settled hpc) hstep hs

/-- A worker whose handler has returned nil is past its claim. -/
theorem pastClaim_of_succeeded {w : Worker} (hw : w.pc.succeeded = true) :
    w.pastClaim = true := by
  rcases Worker.holds_or_settled hw with h | h <;> simp [Worker.pastClaim, h]

/-- **Without a shutdown** every worker of the pool that is past its last store call has
recorded the success of its handler. -/
theorem recorded_of_exec {pool : ℕ → Bool} {as : List Action} {s : Sys}
    (h : exec (step cfg) Sys.init as = some s) (hnodup : (drawnTokens as).Nodup)
    (hreach : ∀ a ∈ as, undisturbed pool a = true) (hi : pool i = true)
    (hkept : AllSteps (step cfg) (fun s a _ => losesClaim i s a = false) Sys.init as)
    (hok : Succeeded i as) (hset : (s.workers i).pc.settled = true) : s.Recorded i := by
  refine exec_history (H := fun as s => (drawnTokens as).Nodup →
    (∀ a ∈ as, undisturbed pool a = true) →
    AllSteps (step cfg) (fun s a _ => losesClaim i s a = false) Sys.init as →
    Succeeded i as → (s.workers i).pc.settled = true → s.Recorded i)
    ?_ ?_ h hnodup hreach hkept hok hset
  · rintro _ _ _ ⟨now, hmem⟩
    cases hmem
  · intro as u a v hu ih hstep hnodup hreach hkept hok hset
    rcases succeeded_concat hok with hold | ⟨now, rfl⟩
    · have hpc := succeeded_of_exec hu hold
      have hnot := takesClaim_of_pastClaim (pastClaim_of_succeeded hpc)
        (hkept as a [] u v rfl hu hstep)
      have hused := Pc.ne_idle rfl hpc
      have hsettled : (u.workers i).pc.settled = true → v.Recorded i := by
        intro hset
        refine Sys.Recorded.step (ok_of_exec hu) hstep ?_ (step_job_id hstep hused) hnot
        exact ih (nodup_of_append hnodup) (fun b hb => hreach b (List.mem_append_left _ hb))
          hkept.of_append hold hset
      have hholds : (u.workers i).holds = true →
          u.RunsUnder (u.workers i).job.id (u.workers i).job.leaseToken :=
        runsUnder_of_exec hu (nodup_of_append hnodup) hkept.of_append
      rcases step_worker_used hstep hused with heq | ⟨act, rfl, hmove⟩
      · rw [heq] at hset
        exact hsettled hset
      · have hundisturbed := hreach (.worker i act) (List.mem_append_right _ (by simp))
        rcases (hmove.of_succeeded hpc).2.2 hset with
          hset | rfl | rfl | ⟨hread, herr⟩ | ⟨now, rfl, hwrite⟩
        · exact hsettled hset
        · simp [undisturbed, hi] at hundisturbed
        · simp [undisturbed, hi] at hundisturbed
        · have hw : (u.workers i).holds = true := by rw [Worker.holds, hread]; rfl
          have hscan := scannable_of_exec hu (.inl hw)
          exact absurd (updateJobCheck_of_runsUnder (ok_of_exec hu) hread hscan (hholds hw)) herr
        · have hw : (u.workers i).holds = true := by rw [Worker.holds, hwrite]; rfl
          exact recorded_of_write (inv_of_exec hu) hstep hwrite (hholds hw)
    · rw [(step_worker_self hstep).of_finish_ok.2.1] at hset
      cases hset

/-- A handler that has returned nil by the end of a run, though its worker was past its last store
call before `post`, returned before `post`. -/
theorem succeeded_of_settled {pre post : List Action} {u s : Sys}
    (hpost : exec (step cfg) u post = some s) (hset : (u.workers i).pc.settled = true)
    (hok : Succeeded i (pre ++ post)) : Succeeded i pre := by
  obtain ⟨now, hmem⟩ := hok
  rcases List.mem_append.mp hmem with hpre | hmem
  · exact ⟨now, hpre⟩
  · obtain ⟨mid, rest, rfl⟩ := List.append_of_mem hmem
    obtain ⟨x, hx, hrest⟩ := exec_append_iff.mp hpost
    obtain ⟨y, hy, -⟩ := exec_cons_iff.mp hrest
    have hpc := settled_of_exec hx hset
    rw [(step_worker_self hy).of_finish_ok.1] at hpc
    cases hpc

/-- A step that is not the worker's own write keeps the row of a worker whose handler has
returned nil, or is returning nil, as it is. -/
theorem runsUnder_of_succeeded {as : List Action} {a : Action} {s s' : Sys} (hinv : s.Inv)
    (htokens : TokensOk as s) (h : step cfg s a = some s')
    (hw : (s.workers i).pc.succeeded = true ∨ ∃ now, a = .worker i (.finish (.ok now)))
    (hne : (s.workers i).job.leaseToken ≠ "")
    (hrun : s.RunsUnder (s.workers i).job.id (s.workers i).job.leaseToken)
    (hown : ∀ now, a ≠ .worker i (.write now)) (hkept : losesClaim i s a = false) :
    s'.RunsUnder (s'.workers i).job.id (s'.workers i).job.leaseToken := by
  have hpast : (s.workers i).pastClaim = true := by
    rcases hw with hw | ⟨now, rfl⟩
    · exact pastClaim_of_succeeded hw
    · simp [Worker.pastClaim, Worker.holds, (step_worker_self h).of_finish_ok.1, Pc.holds]
  have hsame : (s'.workers i).job.leaseToken = (s.workers i).job.leaseToken ∧
      (s'.workers i).job.id = (s.workers i).job.id := by
    rcases hw with hw | ⟨now, rfl⟩
    · rcases step_worker_used h (Pc.ne_idle rfl hw) with heq | ⟨act, -, hmove⟩
      · rw [heq]
        exact ⟨rfl, rfl⟩
      · exact ⟨(hmove.of_succeeded hw).2.1, hmove.job_id⟩
    · have hmove := step_worker_self h
      exact ⟨hmove.of_finish_ok.2.2, hmove.job_id⟩
  rw [hsame.1, hsame.2]
  exact hrun.step hinv htokens h hne hown (takesClaim_of_pastClaim hpast hkept)

variable {pool : ℕ → Bool} {pre post : List Action} {u s : Sys}

/-- **After the cancellation** a worker of the pool that was not past its last store call leaves
its row `RUNNING` when its handler returns nil. -/
theorem ShutdownRun.runsUnder (h : ShutdownRun cfg pool pre post u s) (hi : pool i = true)
    (hok : Succeeded i (pre ++ post))
    (hkept : AllSteps (step cfg) (fun s a _ => losesClaim i s a = false) Sys.init (pre ++ post))
    (hset : (u.workers i).pc.settled = false) :
    s.RunsUnder (s.workers i).job.id (s.workers i).job.leaseToken := by
  -- By induction on the part of the run after the cancellation.
  refine exec_history (H := fun post s => (drawnTokens (pre ++ post)).Nodup →
    (∀ a ∈ post, contextCancelled pool a = true) →
    AllSteps (step cfg) (fun s a _ => losesClaim i s a = false) Sys.init (pre ++ post) →
    Succeeded i (pre ++ post) →
    s.RunsUnder (s.workers i).job.id (s.workers i).job.leaseToken)
    ?_ ?_ h.after h.tokens h.cancelled hkept hok
  · intro hnodup _ hkept hok
    rw [List.append_nil] at hnodup hkept hok
    rcases Worker.holds_or_settled (succeeded_of_exec h.before hok) with hw | hpc
    · exact runsUnder_of_exec h.before hnodup hkept hw
    · rw [hset] at hpc
      cases hpc
  · intro mid x a y hx ih hstep hnodup hcancelled hkept hok
    rw [← List.append_assoc] at hnodup hkept hok
    have hrun : exec (step cfg) Sys.init (pre ++ mid) = some x :=
      exec_append_iff.mpr ⟨u, h.before, hx⟩
    have hinv := inv_of_exec hrun
    have htokens := tokensOk_of_exec hrun (nodup_of_append hnodup)
    have hlast := hkept (pre ++ mid) a [] x y rfl hrun hstep
    have hown : ∀ now, a ≠ .worker i (.write now) := by
      rintro now rfl
      have hnot := hcancelled _ (List.mem_append_right _ (List.mem_singleton.mpr rfl))
      simp [contextCancelled, hi] at hnot
    rcases succeeded_concat hok with hold | ⟨now, rfl⟩
    · have hunder := ih (nodup_of_append hnodup)
        (fun b hb => hcancelled b (List.mem_append_left _ hb)) hkept.of_append hold
      have hne : (x.workers i).job.leaseToken ≠ "" := by
        obtain ⟨r, hfind, -, htoken⟩ := hunder
        exact ne_empty_of_mem_drawnTokens (htokens.rows _ r _ hfind htoken)
      exact runsUnder_of_succeeded hinv htokens hstep (.inl (succeeded_of_exec hrun hold)) hne
        hunder hown hlast
    · have hw : (x.workers i).holds = true := by
        rw [Worker.holds, (step_worker_self hstep).of_finish_ok.1]
        rfl
      exact runsUnder_of_succeeded hinv htokens hstep (.inr ⟨now, rfl⟩)
        (Worker.leaseToken_ne_of_holds (hinv.workers i) hw)
        (runsUnder_of_exec hrun (nodup_of_append hnodup) hkept.of_append hw) hown hlast

/-- **Before the cancellation** recorded outcomes stay. -/
theorem ShutdownRun.recorded (h : ShutdownRun cfg pool pre post u s)
    (hkept : AllSteps (step cfg) (fun s a _ => losesClaim i s a = false) Sys.init (pre ++ post))
    (hset : (u.workers i).pc.settled = true) (hdone : u.Recorded i) : s.Recorded i := by
  have hkeep : ∀ s a s', s.Ok ∧ (s.workers i).pc.settled = true ∧ s.Recorded i →
      step cfg s a = some s' → losesClaim i s a = false →
      s'.Ok ∧ (s'.workers i).pc.settled = true ∧ s'.Recorded i := by
    rintro s a s' ⟨hok, hset, hdone⟩ hstep hnot
    have hused : (s.workers i).pc ≠ .idle := Pc.ne_idle rfl hset
    have hpast : (s.workers i).pastClaim = true := by simp [Worker.pastClaim, hset]
    refine ⟨step_ok s a s' hok hstep, settled_of_exec (by rw [exec_singleton, hstep]) hset, ?_⟩
    exact hdone.step hok hstep (step_job_id hstep hused) (takesClaim_of_pastClaim hpast hnot)
  exact ((hkept.drop h.before).exec_invariant hkeep ⟨ok_of_exec h.before, hset, hdone⟩ h.after).2.2

/-- **What a shutdown records.** When `Pool.Stop` returns, a job of the pool whose handler has
returned nil, and whose claim was not taken away, is `COMPLETED` exactly when its worker was past
its last store call at the cancellation of the context. -/
theorem recorded_iff_settled (h : ShutdownRun cfg pool pre post u s) (hi : pool i = true)
    (hok : Succeeded i (pre ++ post))
    (hkept : AllSteps (step cfg) (fun s a _ => losesClaim i s a = false) Sys.init
      (pre ++ post)) :
    s.Recorded i ↔ (u.workers i).pc.settled = true := by
  constructor
  · rintro ⟨r, hfind, hdone⟩
    by_contra hset
    obtain ⟨r', hfind', hrunning, -⟩ := h.runsUnder hi hok hkept (by simpa using hset)
    rw [hfind] at hfind'
    obtain rfl := Option.some.inj hfind'
    rw [hdone] at hrunning
    cases hrunning
  · intro hset
    have hok := succeeded_of_settled h.after hset hok
    refine h.recorded hkept hset ?_
    exact recorded_of_exec h.before (nodup_of_append h.tokens) h.reachable hi hkept.of_append hok
      hset

end Runs

/-- The pool has one worker, in slot 0. -/
def slotZero (i : ℕ) : Bool := i = 0

/-- The sample job, claimed and with its handler in progress. -/
def handlerRunning : List Action := enqueueSample ++ claimSample 0 1 0 :: runClaimed 0 0

/-- The handler returns nil and `UpdateJob` records it. -/
def recordSuccess : List Action := workerActs 0 [.finish (.ok second), .read, .write second]

/-- The handler returns nil, and `UpdateJob` fails on the cancelled context. -/
def loseSuccess : List Action := workerActs 0 [.finish (.ok second), .storeFail, .unlock]

/-- A shutdown that begins after `UpdateJob` finds the sample job `COMPLETED` at its end. -/
theorem recorded_iff_settled_lateShutdown :
    ∃ u s, ShutdownRun ⟨.reject, 5⟩ slotZero (handlerRunning ++ recordSuccess)
        (workerActs 0 [.unlock]) u s ∧ s.Recorded 0 := by
  obtain ⟨u, hu, hset⟩ := (Option.any_eq_true _ _).mp
    (show (exec (step ⟨.reject, 5⟩) Sys.init (handlerRunning ++ recordSuccess)).any
      (fun u => (u.workers 0).pc.settled) = true by decide +kernel)
  obtain ⟨s, hs, hdone⟩ := (Option.any_eq_true _ _).mp
    (show (exec (step ⟨.reject, 5⟩) Sys.init
        (handlerRunning ++ recordSuccess ++ workerActs 0 [.unlock])).any
      (fun s => (s.workers 0).pc.returned) = true by decide +kernel)
  have hrun : ShutdownRun ⟨.reject, 5⟩ slotZero (handlerRunning ++ recordSuccess)
      (workerActs 0 [.unlock]) u s := by
    refine ⟨hu, exec_drop hs hu, by decide +kernel, by decide +kernel, by decide +kernel, ?_⟩
    intro i hi
    rw [of_decide_eq_true hi]
    exact hdone
  have hcheck : checkSteps (step ⟨.reject, 5⟩) (fun s a => !losesClaim 0 s a) Sys.init
      (handlerRunning ++ recordSuccess ++ workerActs 0 [.unlock]) = true := by decide +kernel
  refine ⟨u, s, hrun, (recorded_iff_settled hrun rfl ⟨second, ?_⟩ ?_).mpr hset⟩
  · simp [recordSuccess, workerActs]
  · exact allSteps_of_checkSteps_not hcheck

/-- A shutdown that begins while the handler is in progress. The handler returns nil, `Stop`
returns nil, and the job is not `COMPLETED` though nobody took its claim away. -/
theorem not_recorded_earlyShutdown :
    ∃ u s, ShutdownRun ⟨.reject, 5⟩ slotZero handlerRunning loseSuccess u s ∧
      Succeeded 0 (handlerRunning ++ loseSuccess) ∧
      AllSteps (step ⟨.reject, 5⟩) (fun s a _ => losesClaim 0 s a = false) Sys.init
        (handlerRunning ++ loseSuccess) ∧ ¬ s.Recorded 0 := by
  obtain ⟨u, hu⟩ := Option.isSome_iff_exists.mp
    (show (exec (step ⟨.reject, 5⟩) Sys.init handlerRunning).isSome = true by decide +kernel)
  obtain ⟨s, hs, hstate⟩ := (Option.any_eq_true _ _).mp
    (show (exec (step ⟨.reject, 5⟩) Sys.init (handlerRunning ++ loseSuccess)).any
      (fun s => (s.workers 0).pc.returned &&
        (s.db.find? (s.workers 0).job.id).any fun r => r.state = .running) = true by
      decide +kernel)
  rw [Bool.and_eq_true] at hstate
  have hcheck : checkSteps (step ⟨.reject, 5⟩) (fun s a => !losesClaim 0 s a) Sys.init
      (handlerRunning ++ loseSuccess) = true := by decide +kernel
  refine ⟨u, s, ?_, ⟨second, ?_⟩, ?_, ?_⟩
  · refine ⟨hu, exec_drop hs hu, by decide +kernel, by decide +kernel, by decide +kernel, ?_⟩
    intro i hi
    rw [of_decide_eq_true hi]
    exact hstate.1
  · simp [loseSuccess, workerActs]
  · exact allSteps_of_checkSteps_not hcheck
  · rintro ⟨r, hfind, hdone⟩
    obtain ⟨r', hfind', hrunning⟩ := (Option.any_eq_true _ _).mp hstate.2
    rw [hfind] at hfind'
    obtain rfl := Option.some.inj hfind'
    rw [of_decide_eq_true hrunning] at hdone
    cases hdone

end Conduit
