import Conduit.Claim

/-!
# What a `Run` Leaves Behind

`Run` gets a job whose row is `RUNNING` under its token, and has many ways to return: the job is
too far ahead, the breaker is open, the lock is taken, the handler has returned. Each of them has to
undo the claim or to record the outcome. One does not: a job that is more than a minute ahead of the
worker's clock is left for the reconciler, as if it had not been claimed.

The runs are those of the whole system. The context of the worker is not cancelled, none of its
store calls fails, its handler does not panic, and no other party touches its row.

## Main results

* `WorkerStep.runOk`: what the copy and the row are at each point of a `Run`.
* `not_runsUnder_iff`: when `Run` returns, the row is no longer `RUNNING` under the token exactly
  when the job was not too far ahead.
-/

namespace Conduit

open KeyedTable Transition

/-! ### The copy and the row -/

/-- The row under `k`, by its state and its token. -/
def RowIs (db : Jobs) (k : String) (P : JobState → Option String → Prop) : Prop :=
  ∃ r, db.find? k = some r ∧ P r.state r.leaseToken

/-- The state the row is in before an `UpdateJob` call of each kind. -/
def Phase.source : Phase → JobState
  | .claim => .pending
  | .reschedule => .failed
  | _ => .running

theorem Phase.canTransition_source (p : Phase) : canTransition p.source p.state = true := by
  cases p <;> rfl

/-- What the row of a job that came claimed is at each point of its `Run`. At the end it is
`PENDING` without a token; if the job has been executed (`ran`), it may be `COMPLETED` or `DEAD`. -/
def Pc.RowOwed (token : String) (ran : Prop) (state : JobState) (leaseToken : Option String) :
    Pc → Prop
  | .queued | .entry | .sleeping | .breaker | .locking | .ready | .executing | .release _ =>
    state = .running ∧ leaseToken = some token
  | .read p | .write p => state = p.source ∧ leaseToken = some token
  | .unlock | .done =>
    leaseToken = none ∧ (state = .pending ∨ ran ∧ (state = .completed ∨ state = .dead))
  | .idle | .claimed | .locked => False

/-- What the copy is: claimed up to the lock, and afterwards what is about to be written. -/
def Worker.CopyOwed (ran : Prop) (w : Worker) : Prop :=
  match w.pc with
  | .queued | .entry | .sleeping | .breaker | .locking =>
    w.job.state = .running ∧ w.renewing = false
  | .executing => ran
  | .read p | .write p => ran ∧ p ≠ .claim ∧ w.job.state = p.state
  | _ => True

/-- A `Run` of the job `k` that came claimed under `token`. -/
structure RunOk (k token : String) (ran : Prop) (w : Worker) (db : Jobs) : Prop where
  id : w.job.id = k
  leaseToken : w.job.leaseToken = token
  copy : w.CopyOwed ran
  row : RowIs db k fun state leaseToken => w.pc.RowOwed token ran state leaseToken

/-- What is excluded: the context is cancelled, a store call fails, the handler panics, the
process crashes. -/
def runFails (nulls : NullText) (db : Jobs) (w : Worker) : WorkerAct → Bool
  | .ctxDone | .storeFail | .finish .panic | .crash => true
  | .read =>
    match getJob nulls w.job.id db with
    | .ok _ => false
    | .error _ => true
  | _ => false

/-- `Run` finds the job more than `maxInWorkerSleep` ahead of its clock. -/
def findsFar (w : Worker) : WorkerAct → Bool
  | .checkDue now => w.job.scheduledAt.any fun t => maxInWorkerSleep < t - now
  | _ => false

section Row

variable {db : Jobs} {job : Job} {r : Row}

/-- The `UPDATE` of a job whose row has its token. -/
theorem updateJobExec_of_token (hfind : db.find? job.id = some r)
    (htoken : r.leaseToken = some job.leaseToken) (now : Time) :
    (updateJobExec now job db).2 = .ok () ∧
      (updateJobExec now job db).1.find? job.id = some ((updateEdit now job).apply r) := by
  have hmatch := updateMatches_of_token hfind htoken
  refine ⟨execUpdate_of_match _ (fun _ => updateMatches_id) hfind hmatch, ?_⟩
  rw [updateJobExec, find?_execUpdate, hfind, Option.map_some, editWhere_of_true _ hmatch]

/-- A renewal keeps the state and the token of every row. -/
theorem RowIs.renewLease {k : String} {P : JobState → Option String → Prop} (h : RowIs db k P)
    (now : Time) (dbNow : Timestamp) (lease : Duration) (job : Job) :
    RowIs (renewLease now dbNow lease job db).1 k P := by
  obtain ⟨r, hfind, hP⟩ := h
  refine ⟨_, by rw [find?_renewLease, hfind, Option.map_some], ?_⟩
  unfold editWhere
  split
  · exact hP
  · split
    · exact hP
    · exact hP

end Row

section Moves

variable {cfg : Config} {db db' : Jobs} {w w' : Worker} {act : WorkerAct} {k token : String}
  {ran : Prop}

/-- A `Run` that gives up a claimed job releases it. -/
theorem Worker.giveUp_claimed (hstate : w.job.state = .running) (htoken : w.job.leaseToken ≠ "")
    (reason : String) : w.giveUp reason = w.goto (.release reason) := by
  unfold Worker.giveUp
  exact if_neg fun h => h.elim (fun hne => hne hstate) htoken

/-- A `Run` whose execution failed goes on to record it. -/
theorem RunOk.failed (hran : ran)
    (hrow : RowIs db w.job.id fun state leaseToken =>
      state = .running ∧ leaseToken = some w.job.leaseToken) (err : RunError) (nextRun : Time) :
    RunOk w.job.id w.job.leaseToken ran (w.failed cfg err nextRun) db := by
  rcases w.failed_cases cfg err nextRun with heq | heq <;> rw [heq]
  · exact ⟨rfl, rfl, ⟨hran, nofun, rfl⟩, hrow⟩
  · exact ⟨rfl, rfl, ⟨hran, nofun, rfl⟩, hrow⟩

/-- The copy without its renewal. -/
theorem Worker.CopyOwed.notRenewing (h : w.CopyOwed ran) :
    ({ w with renewing := false } : Worker).CopyOwed ran := by
  unfold Worker.CopyOwed at h ⊢
  cases hpc : w.pc with
  | queued | entry | sleeping | breaker | locking =>
      rw [hpc] at h
      exact ⟨h.1, rfl⟩
  | _ =>
      rw [hpc] at h
      exact h

/-- The `UPDATE` of a `Run` leaves the row as the next point expects it. -/
theorem RunOk.written {p : Phase} {now : Time} (hok : RunOk k token ran w db)
    (hne : token ≠ "") (hpc : w.pc = .write p) :
    (updateJobExec now w.job db).2 = .ok () ∧
      RunOk k token ran (w.recorded p) (updateJobExec now w.job db).1 := by
  obtain ⟨rfl, rfl, hcopy, r, hfind, hrow⟩ := hok
  unfold Worker.CopyOwed at hcopy
  rw [hpc] at hcopy hrow
  obtain ⟨hran, hclaim, hstate⟩ := hcopy
  obtain ⟨hdone, hfind'⟩ := updateJobExec_of_token hfind hrow.2 now
  refine ⟨hdone, ?_⟩
  cases p with
  | claim => exact absurd rfl hclaim
  | fail nextRun =>
      refine ⟨rfl, rfl, ⟨hran, nofun, rfl⟩, _, hfind', hstate, ?_⟩
      simp [updateEdit, hstate, Phase.state, nullableString_of_ne hne]
  | complete =>
      refine ⟨rfl, rfl, trivial, _, hfind', ?_, .inr ⟨hran, .inl hstate⟩⟩
      simp [updateEdit, hstate, Phase.state]
  | reschedule =>
      refine ⟨rfl, rfl, trivial, _, hfind', ?_, .inl hstate⟩
      simp [updateEdit, hstate, Phase.state]
  | deadLetter =>
      refine ⟨rfl, rfl, trivial, _, hfind', ?_, .inr ⟨hran, .inr hstate⟩⟩
      simp [updateEdit, hstate, Phase.state]

/-- A read that does not fail finds the row in a state that allows the transition. -/
theorem RunOk.checked {nulls : NullText} {p : Phase} (hok : RunOk k token ran w db)
    (hpc : w.pc = .read p) (hread : runFails nulls db w .read = false) :
    updateJobCheck nulls w.job db = .ok () := by
  obtain ⟨rfl, rfl, hcopy, r, hfind, hrow⟩ := hok
  unfold Worker.CopyOwed at hcopy
  rw [hpc] at hcopy hrow
  cases hget : getJob nulls w.job.id db with
  | error e => simp [runFails, hget] at hread
  | ok existing =>
      obtain ⟨r', hfind', -, hscan⟩ := getJob_eq_ok_iff.mp hget
      rw [hfind] at hfind'
      obtain rfl := Option.some.inj hfind'
      refine updateJobCheck_eq_ok_iff.mpr ⟨r, hfind, hscan, ?_⟩
      rw [hrow.1, hcopy.2.2]
      exact p.canTransition_source

/-- The release of a claimed job makes its row `PENDING`. -/
theorem RunOk.released {reason : String} (hok : RunOk k token ran w db)
    (hpc : w.pc = .release reason) (dbNow : Timestamp) :
    RunOk k token ran (w.goto .done) (releaseClaim dbNow w.job reason db).1 := by
  obtain ⟨rfl, rfl, -, r, hfind, hrow⟩ := hok
  rw [hpc] at hrow
  have hmatch : holdsClaim w.job r = true :=
    decide_eq_true ⟨key_of_find? hfind, hrow.1, hrow.2⟩
  exact ⟨rfl, rfl, trivial, _, find?_releaseClaim hfind hmatch dbNow reason, rfl, .inl rfl⟩

/-- **One move of a `Run`** that does not fail, and does not find the job too far ahead, leaves the
copy and the row as the next point expects them. -/
theorem WorkerStep.runOk (h : WorkerStep cfg db w act db' w') (hok : RunOk k token ran w db)
    (hne : token ≠ "") (hfails : runFails cfg.nulls db w act = false)
    (hran : act = .exec → ran) (hnear : findsFar w act = false) : RunOk k token ran w' db' := by
  have hok' := hok
  obtain ⟨rfl, rfl, hcopy, r, hfind, hrow⟩ := hok'
  unfold Worker.CopyOwed at hcopy
  cases h with
  | submitted hpc => rw [hpc] at hrow; exact hrow.elim
  | rejected hpc => rw [hpc] at hrow; exact hrow.elim
  | begun hpc => rw [hpc] at hcopy hrow; exact ⟨rfl, rfl, hcopy, r, hfind, hrow⟩
  | due hpc => rw [hpc] at hcopy hrow; exact ⟨rfl, rfl, hcopy, r, hfind, hrow⟩
  | tooFar hpc ht hwait => simp [findsFar, ht, hwait] at hnear
  | slept hpc => rw [hpc] at hcopy hrow; exact ⟨rfl, rfl, hcopy, r, hfind, hrow⟩
  | woke hpc => rw [hpc] at hcopy hrow; exact ⟨rfl, rfl, hcopy, r, hfind, hrow⟩
  | ctxDone => cases hfails
  | allowed hpc => rw [hpc] at hcopy hrow; exact ⟨rfl, rfl, hcopy, r, hfind, hrow⟩
  | refused hpc | notLocked hpc =>
      rw [hpc] at hcopy hrow
      rw [Worker.giveUp_claimed hcopy.1 hne]
      exact ⟨rfl, rfl, trivial, r, hfind, hrow⟩
  | lockedClaimed hpc => rw [hpc] at hrow; exact ⟨rfl, rfl, trivial, r, hfind, hrow⟩
  | lockedUnclaimed hpc hstate => rw [hpc] at hcopy; exact absurd hcopy.1 hstate
  | prepared hpc => rw [hpc] at hrow; exact hrow.elim
  | tokenFailed hpc => rw [hpc] at hrow; exact hrow.elim
  | checked hpc => rw [hpc] at hcopy hrow; exact ⟨rfl, rfl, hcopy, r, hfind, hrow⟩
  | notChecked hpc herr => exact absurd (hok.checked hpc hfails) herr
  | written hpc => exact (hok.written hne hpc).2
  | notWritten hpc herr => exact absurd (hok.written hne hpc).1 herr
  | started hpc => rw [hpc] at hrow; exact ⟨rfl, rfl, hran rfl, r, hfind, hrow⟩
  | noHandler hpc => rw [hpc] at hrow; exact .failed (hran rfl) ⟨r, hfind, hrow⟩ _ _
  | succeeded hpc =>
      rw [hpc] at hcopy hrow
      exact ⟨rfl, rfl, ⟨hcopy, nofun, rfl⟩, r, hfind, hrow⟩
  | failed hpc => rw [hpc] at hcopy hrow; exact .failed hcopy ⟨r, hfind, hrow⟩ _ _
  | panicked => cases hfails
  | renewed => exact ⟨rfl, rfl, hok.copy, hok.row.renewLease _ _ _ _⟩
  | notRenewed => exact ⟨rfl, rfl, hok.copy.notRenewing, hok.row.renewLease _ _ _ _⟩
  | renewFailed => exact ⟨rfl, rfl, hok.copy.notRenewing, hok.row⟩
  | released hpc => exact hok.released hpc _
  | unlocked hpc => rw [hpc] at hrow; exact ⟨rfl, rfl, trivial, r, hfind, hrow⟩
  | readFailed => cases hfails
  | writeFailed => cases hfails
  | releaseFailed => cases hfails
  | crashed => cases hfails

/-- A `Run` that has returned and left the row as it was. -/
structure Abandoned (k token : String) (w : Worker) (db : Jobs) : Prop where
  pc : w.pc = .done
  renewing : w.renewing = false
  row : RowIs db k fun state leaseToken => state = .running ∧ leaseToken = some token

/-- **The exit that abandons the claim.** -/
theorem WorkerStep.abandoned (h : WorkerStep cfg db w act db' w') (hok : RunOk k token ran w db)
    (hfar : findsFar w act = true) : Abandoned k token w' db' := by
  obtain ⟨rfl, rfl, hcopy, hrow⟩ := hok
  unfold Worker.CopyOwed at hcopy
  cases h with
  | tooFar hpc =>
      rw [hpc] at hcopy hrow
      exact ⟨rfl, hcopy.2, hrow⟩
  | @due now hpc hdue =>
      obtain ⟨t, ht, hwait⟩ := (Option.any_eq_true _ _).mp hfar
      have hle := hdue t ht
      have hlt : maxInWorkerSleep < t - now := of_decide_eq_true hwait
      unfold maxInWorkerSleep second Duration Time at *
      omega
  | @slept now t hpc ht hpos hwait =>
      rw [findsFar, ht, Option.any_some, decide_eq_true_eq] at hfar
      exact absurd hwait (not_le.mpr hfar)
  | _ => cases hfar

/-- A `Run` that has returned makes no move but a crash. -/
theorem WorkerStep.of_abandoned (h : WorkerStep cfg db w act db' w')
    (hab : Abandoned k token w db) : act = .crash := by
  obtain ⟨hdone, hrenewing, -⟩ := hab
  cases h with
  | crashed => rfl
  | renewed hrenew | notRenewed hrenew | renewFailed hrenew =>
      rw [hrenewing] at hrenew
      cases hrenew
  | _ => simp_all

end Moves

/-! ### Whole runs -/

/-- The action leaves the row under `k` as it is. -/
def keepsRow (k : String) (s : Sys) (a : Action) : Bool :=
  (s.db.find? k).all fun r => rowAfter s a r = r

/-- The worker in slot `i` does not fail, and nobody else touches the row under `k`. -/
def quiet (nulls : NullText) (i : ℕ) (k : String) (s : Sys) (a : Action) : Bool :=
  match a with
  | .worker j act => if j = i then !runFails nulls s.db (s.workers i) act else keepsRow k s a
  | _ => keepsRow k s a

/-- The action of the worker in slot `i` that leaves a job for the reconciler. -/
def leavesFar (i : ℕ) (s : Sys) : Action → Bool
  | .worker j act => j = i && findsFar (s.workers i) act
  | _ => false

section Runs

variable {cfg : Config} {s s' : Sys} {a : Action} {i : ℕ} {k token : String} {ran : Prop}

/-- A row that the action keeps. -/
theorem RowIs.of_keepsRow {P : JobState → Option String → Prop} (h : step cfg s a = some s')
    (hkeep : keepsRow k s a = true) (hrow : RowIs s.db k P) : RowIs s'.db k P := by
  obtain ⟨r, hfind, hP⟩ := hrow
  rw [keepsRow, hfind, Option.all_some, decide_eq_true_eq] at hkeep
  have hfind' := step_find? h hfind
  rw [hkeep] at hfind'
  exact ⟨r, hfind', hP⟩

/-- A quiet action of anybody else keeps the row. -/
theorem keepsRow_of_quiet (hquiet : quiet cfg.nulls i k s a = true)
    (hother : ∀ act, a ≠ .worker i act) : keepsRow k s a = true := by
  unfold quiet at hquiet
  split at hquiet
  · rename_i j act
    rwa [if_neg fun hji => hother act (by rw [hji])] at hquiet
  · exact hquiet

/-- One quiet step: the `Run` goes on as it should, unless it finds its job too far ahead and
abandons it. -/
theorem step_runOk (h : step cfg s a = some s') (hok : RunOk k token ran (s.workers i) s.db)
    (hne : token ≠ "") (hquiet : quiet cfg.nulls i k s a = true)
    (hran : a = .worker i .exec → ran) :
    (leavesFar i s a = false ∧ RunOk k token ran (s'.workers i) s'.db) ∨
      (leavesFar i s a = true ∧ Abandoned k token (s'.workers i) s'.db) := by
  cases step_workerChange h i with
  | same heq hother =>
      refine .inl ⟨?_, ?_⟩
      · unfold leavesFar
        split
        · rename_i j act
          have hji : j ≠ i := fun hji => hother act (by rw [hji])
          exact Bool.and_eq_false_iff.mpr (.inl (decide_eq_false hji))
        · rfl
      · rw [heq]
        exact ⟨hok.id, hok.leaseToken, hok.copy,
          hok.row.of_keepsRow h (keepsRow_of_quiet hquiet hother)⟩
  | claimed hidle | delivered hidle =>
      obtain ⟨r, -, hrow⟩ := hok.row
      rw [hidle] at hrow
      exact hrow.elim
  | @moved act hmove =>
      have hfar : leavesFar i s (.worker i act) = findsFar (s.workers i) act := by
        simp [leavesFar]
      have hfails : runFails cfg.nulls s.db (s.workers i) act = false := by
        simpa [quiet] using hquiet
      rw [hfar]
      cases hfinds : findsFar (s.workers i) act with
      | false =>
          exact .inl ⟨rfl, hmove.runOk hok hne hfails (fun hexec => hran (by rw [hexec])) hfinds⟩
      | true => exact .inr ⟨rfl, hmove.abandoned hok hfinds⟩

/-- An abandoned claim stays abandoned. -/
theorem step_abandoned (h : step cfg s a = some s') (hab : Abandoned k token (s.workers i) s.db)
    (hquiet : quiet cfg.nulls i k s a = true) : Abandoned k token (s'.workers i) s'.db := by
  cases step_workerChange h i with
  | same heq hother =>
      rw [heq]
      exact ⟨hab.pc, hab.renewing, hab.row.of_keepsRow h (keepsRow_of_quiet hquiet hother)⟩
  | claimed hidle | delivered hidle =>
      rw [hab.pc] at hidle
      cases hidle
  | moved hmove =>
      obtain rfl := hmove.of_abandoned hab
      simp [quiet, runFails] at hquiet

/-- Where `Run` has returned as it should, the row is no longer held. -/
theorem RunOk.not_runsUnder (hok : RunOk k token ran (s.workers i) s.db)
    (hdone : (s.workers i).pc = .done) : ¬ s.RunsUnder k token := by
  rintro ⟨r', hfind', -, htoken⟩
  obtain ⟨r, hfind, hrow⟩ := hok.row
  rw [hfind] at hfind'
  obtain rfl := Option.some.inj hfind'
  rw [hdone] at hrow
  rw [hrow.1] at htoken
  cases htoken

/-- **What a `Run` leaves behind.** A worker gets a job that is `RUNNING` under its token. Its
context is not cancelled, its store calls do not fail, its handler does not panic, and nobody else
touches the row. When `Run` returns, the row is no longer `RUNNING` under the token if and only if
`scheduled_at` was not more than `maxInWorkerSleep` ahead of the worker's clock. Then the row is
`PENDING`, or the job has been executed and the row is `COMPLETED` or `DEAD`. -/
theorem not_runsUnder_iff (cfg : Config) (s₀ s : Sys) (i : ℕ) (job : Job) (as : List Action)
    (hworker : s₀.workers i = ⟨.queued, job, false⟩) (hstate : job.state = .running)
    (htoken : job.leaseToken ≠ "") (hrow : s₀.RunsUnder job.id job.leaseToken)
    (h : exec (step cfg) s₀ as = some s)
    (hquiet : AllSteps (step cfg) (fun u a _ => quiet cfg.nulls i job.id u a = true) s₀ as)
    (hdone : (s.workers i).pc = .done) :
    (¬ s.RunsUnder job.id job.leaseToken ↔
        AllSteps (step cfg) (fun u a _ => leavesFar i u a = false) s₀ as) ∧
      (¬ s.RunsUnder job.id job.leaseToken → ∃ r, s.db.find? job.id = some r ∧
        (r.state = .pending ∨
          .worker i .exec ∈ as ∧ (r.state = .completed ∨ r.state = .dead))) := by
  have hinit : RunOk job.id job.leaseToken (.worker i .exec ∈ as) (s₀.workers i) s₀.db := by
    rw [hworker]
    exact ⟨rfl, rfl, ⟨hstate, rfl⟩, hrow⟩
  have hall : AllSteps (step cfg) (fun u a _ => quiet cfg.nulls i job.id u a = true ∧
      (a = .worker i .exec → .worker i .exec ∈ as)) s₀ as := by
    intro pre a post u v has hpre ha
    refine ⟨hquiet pre a post u v has hpre ha, fun hexec => ?_⟩
    rw [has, ← hexec]
    exact List.mem_append_right _ List.mem_cons_self
  have hverdict := hall.verdict (P := fun u a _ => leavesFar i u a = false)
    (I := fun u => RunOk job.id job.leaseToken (.worker i .exec ∈ as) (u.workers i) u.db)
    (B := fun u => Abandoned job.id job.leaseToken (u.workers i) u.db)
    (fun u a v hu ha hQ => ?_) (fun u a v hu ha hQ => step_abandoned ha hu hQ.1) hinit h
  · rcases hverdict with ⟨hnear, hok⟩ | ⟨hfar, hab⟩
    · refine ⟨iff_of_true (hok.not_runsUnder hdone) hnear, fun _ => ?_⟩
      obtain ⟨r, hfind, howed⟩ := hok.row
      rw [hdone] at howed
      exact ⟨r, hfind, howed.2⟩
    · exact ⟨iff_of_false (fun hnot => hnot hab.row) hfar, fun hnot => absurd hab.row hnot⟩
  · rw [Bool.not_eq_false]
    exact step_runOk ha hu htoken hQ.1 hQ.2

end Runs

/-! ### Two runs -/

/-- The sample job, enqueued at `now` and claimed by a reconciler, in the queue of the pool. -/
def claimedAt (now : Time) : List Action :=
  [.enqueue 0 (.start sampleRequest), .enqueue 0 .lookup,
    .enqueue 0 (.insert (sampleRandom 0) now now), .enqueue 0 .publish, claimSample 0 1 now,
    .worker 0 (.submit true)]

/-- The worker has a job in its queue that is `RUNNING` under its token. -/
def holdsJob (s : Sys) : Bool :=
  (s.workers 0).pc = .queued ∧ (s.workers 0).renewing = false ∧
    (s.workers 0).job.state = .running ∧ (s.workers 0).job.leaseToken ≠ "" ∧
    s.RunsUnder (s.workers 0).job.id (s.workers 0).job.leaseToken

/-- A `Run` that begins a minute early, waits and executes its job. -/
def completedRun : List Action :=
  workerActs 0 [.begin, .checkDue (40 * second), .wake (100 * second), .allow true, .acquire true,
    .exec, .finish (.ok (100 * second)), .read, .write (100 * second), .unlock]

/-- A `Run` that begins 61 seconds early. -/
def tooFarRun : List Action := workerActs 0 [.begin, .checkDue (39 * second)]

/-- With the worker's clock a minute behind, the job is executed. -/
theorem not_runsUnder_completedRun :
    ∃ s₀ s, exec (step ⟨.reject, 5⟩) Sys.init (claimedAt (100 * second)) = some s₀ ∧
      s₀.RunsUnder (s₀.workers 0).job.id (s₀.workers 0).job.leaseToken ∧
      exec (step ⟨.reject, 5⟩) s₀ completedRun = some s ∧ (s.workers 0).pc = .done ∧
      ¬ s.RunsUnder (s₀.workers 0).job.id (s₀.workers 0).job.leaseToken := by
  obtain ⟨s₀, hs₀, hcheck⟩ := (Option.any_eq_true _ _).mp
    (show (exec (step ⟨.reject, 5⟩) Sys.init (claimedAt (100 * second))).any (fun s₀ =>
      holdsJob s₀ &&
        (exec (step ⟨.reject, 5⟩) s₀ completedRun).any (fun s => (s.workers 0).pc = .done) &&
        checkSteps (step ⟨.reject, 5⟩) (quiet .reject 0 (s₀.workers 0).job.id) s₀ completedRun &&
        checkSteps (step ⟨.reject, 5⟩) (fun u a => !leavesFar 0 u a) s₀ completedRun) = true by
          decide +kernel)
  simp only [Bool.and_eq_true] at hcheck
  obtain ⟨⟨⟨hholds, hend⟩, hquiet⟩, hnear⟩ := hcheck
  obtain ⟨hpc, hrenewing, hstate, htoken, hruns⟩ := of_decide_eq_true hholds
  obtain ⟨s, hs, hdone⟩ := (Option.any_eq_true _ _).mp hend
  have hworker : s₀.workers 0 = ⟨.queued, (s₀.workers 0).job, false⟩ := by
    rw [← hpc, ← hrenewing]
  refine ⟨s₀, s, hs₀, hruns, hs, of_decide_eq_true hdone, ?_⟩
  exact (not_runsUnder_iff ⟨.reject, 5⟩ s₀ s 0 _ _ hworker hstate htoken hruns hs
    (allSteps_of_checkSteps hquiet) (of_decide_eq_true hdone)).1.mpr
      (allSteps_of_checkSteps_not hnear)

/-- With the worker's clock 61 seconds behind that of the database, `Run` returns and the job
stays `RUNNING`. -/
theorem runsUnder_tooFarRun :
    ∃ s₀ s, exec (step ⟨.reject, 5⟩) Sys.init (claimedAt (100 * second)) = some s₀ ∧
      holdsJob s₀ = true ∧ exec (step ⟨.reject, 5⟩) s₀ tooFarRun = some s ∧
      AllSteps (step ⟨.reject, 5⟩)
        (fun u a _ => quiet .reject 0 (s₀.workers 0).job.id u a = true) s₀ tooFarRun ∧
      (s.workers 0).pc = .done ∧
      s.RunsUnder (s₀.workers 0).job.id (s₀.workers 0).job.leaseToken := by
  obtain ⟨s₀, hs₀, hcheck⟩ := (Option.any_eq_true _ _).mp
    (show (exec (step ⟨.reject, 5⟩) Sys.init (claimedAt (100 * second))).any (fun s₀ =>
      holdsJob s₀ &&
        (exec (step ⟨.reject, 5⟩) s₀ tooFarRun).any (fun s => (s.workers 0).pc = .done ∧
          s.RunsUnder (s₀.workers 0).job.id (s₀.workers 0).job.leaseToken) &&
        checkSteps (step ⟨.reject, 5⟩) (quiet .reject 0 (s₀.workers 0).job.id) s₀ tooFarRun) =
          true by decide +kernel)
  simp only [Bool.and_eq_true] at hcheck
  obtain ⟨⟨hholds, hend⟩, hquiet⟩ := hcheck
  obtain ⟨s, hs, hlast⟩ := (Option.any_eq_true _ _).mp hend
  exact ⟨s₀, s, hs₀, hholds, hs, allSteps_of_checkSteps hquiet, of_decide_eq_true hlast⟩

end Conduit
