import Conduit.System

/-!
# A Pass of the Reconciler

`reconcile` requeues the jobs whose leases have expired, and then claims due jobs one after the
other, up to a batch, and hands each to the worker pool. A claim comes before the submit that may
fail, so a rejected job has to be released again, under the context whose cancellation may be the
reason for the rejection.

A pass is a run of `reconcileStep`. The context may be cancelled between any two calls. A store
call under a cancelled context fails without effect, and `SubmitBlocking` accepts nothing under
one; otherwise the submitter answers as it likes. Other parties change the table as they like,
apart from the row of the claim the pass has in hand.

## Main results

* `reconcileStep_sound`: every move of `reconcileStep` is one of the moves of `PassStep`.
* `PassStep.settles`: a move keeps every claim accounted for, or abandons one and ends the pass.
* `settled_iff`: a pass that returns has left no claim behind exactly when none of its steps has
  abandoned one.
* `exists_exec_of_pass`: a pass by itself is a run of the system.
-/

namespace Conduit

open KeyedTable Transition

/-! ### Configuration -/

/-- `reconciler.Config`. -/
structure ReconcilerConfig where
  interval : Duration
  idleInterval : Duration
  batchSize : ℤ
  runningLease : Duration

/-- The configuration of the `Reconciler` that `New` returns. -/
def newReconciler (cfg : ReconcilerConfig) : ReconcilerConfig :=
  let interval := if cfg.interval ≤ 0 then 60 * second else cfg.interval
  { interval := interval
    idleInterval :=
      if cfg.idleInterval ≤ 0 then interval
      else if cfg.idleInterval < interval then interval
      else cfg.idleInterval
    batchSize := if cfg.batchSize ≤ 0 then 100 else cfg.batchSize
    runningLease := if cfg.runningLease ≤ 0 then 5 * 60 * second else cfg.runningLease }

/-! ### The pass -/

/-- Where a pass is. -/
inductive PassPc
  | requeue
  /-- At the head of the loop. -/
  | check
  | claim
  | submit (job : Job)
  | release (job : Job)
  | returned
  deriving DecidableEq

/-- The job a pass has claimed and not handed over or released yet. -/
def PassPc.inHand : PassPc → Option Job
  | .submit job | .release job => some job
  | _ => none

/-- A row that a pass has moved to `RUNNING`, and whether `SubmitBlocking` has accepted its job. -/
structure PassClaim where
  id : String
  accepted : Bool
  deriving DecidableEq

/-- A pass of `reconcile`. The claims it has made, latest first, are not the code's own. -/
structure Pass where
  pc : PassPc
  db : Jobs
  cancelled : Bool
  claimed : ℤ
  hadWork : Bool
  claims : List PassClaim

/-- What happens in a pass. -/
inductive PassAct
  /-- The context is cancelled. -/
  | cancel
  /-- Other parties change the table. -/
  | other (db : Jobs)
  /-- `RequeueExpiredRunning`, refused by the server or not. -/
  | requeue (refused : Bool) (dbNow : Timestamp) (locked : List String)
  /-- The tests at the head of the loop. -/
  | check
  /-- `ClaimNextJob`. -/
  | claim (fault : Option ClaimFault) (now : Time) (dbNow : Timestamp) (rand : RandomBytes)
      (locked : List String)
  /-- `SubmitBlocking`. -/
  | submit (accepted : Bool)
  /-- `ReleaseClaim`. -/
  | release (dbNow : Timestamp)

/-- The fault of a claim under a context: without one of its own, a call under a cancelled context
fails at its statement. -/
def passFault (cancelled : Bool) (fault : Option ClaimFault) : Option ClaimFault :=
  if cancelled then some (fault.getD .statement) else fault

/-- What a claim of the pass reads from outside the table. -/
def claimCall (cfg : ReconcilerConfig) (now : Time) (dbNow : Timestamp) (rand : RandomBytes)
    (locked : List String) : ClaimCall :=
  ⟨now, dbNow, cfg.runningLease, rand, locked⟩

/-- The row a claim takes, if it takes one. -/
def takenRow (fault : Option ClaimFault) (call : ClaimCall) (db : Jobs) : Option Row :=
  match fault with
  | some _ => none
  | none => selectDue call db

namespace Pass

/-- The start of a pass. -/
def init (db : Jobs) : Pass := ⟨.requeue, db, false, 0, false, []⟩

/-- Return from the pass. -/
def finish (s : Pass) (hadWork : Bool) : Pass := { s with pc := .returned, hadWork := hadWork }

/-- The table and the claims after a call of `ClaimNextJob`. -/
def take (s : Pass) (db : Jobs) (row : Option Row) : Pass :=
  { s with db := db, claims := (row.map fun r => ⟨r.id, false⟩).toList ++ s.claims }

/-- Where the pass goes on after a call of `ClaimNextJob`. -/
def afterClaim (s : Pass) : Except StoreError Job → Pass
  | .ok job => { s with pc := .submit job }
  | .error .jobNotFound => s.finish (0 < s.claimed || s.hadWork)
  | .error _ => s.finish true

/-- The claim of the next job. -/
def claimStep (nulls : NullText) (cfg : ReconcilerConfig) (s : Pass) (fault : Option ClaimFault)
    (now : Time) (dbNow : Timestamp) (rand : RandomBytes) (locked : List String) : Pass :=
  let fault := passFault s.cancelled fault
  let call := claimCall cfg now dbNow rand locked
  let (db, result) := claimNextJobCall nulls fault call s.db
  (s.take db (takenRow fault call s.db)).afterClaim result

/-- The latest claim is accepted. -/
def accept (s : Pass) : Pass :=
  { s with
    pc := .check
    claimed := s.claimed + 1
    claims := s.claims.modifyHead fun c => { c with accepted := true } }

end Pass

/-- One step of a pass. A pass that has returned makes none. -/
def reconcileStep (nulls : NullText) (cfg : ReconcilerConfig) (s : Pass) (act : PassAct) :
    Option Pass :=
  if s.pc = .returned then none
  else
    match act, s.pc with
    | .cancel, _ => some { s with cancelled := true }
    | .other db, _ =>
      if ∀ job ∈ s.pc.inHand, db.find? job.id = s.db.find? job.id then some { s with db := db }
      else none
    | .requeue refused dbNow locked, .requeue =>
      -- With a limit that is not positive there is no statement to fail.
      if 0 < cfg.batchSize ∧ (s.cancelled ∨ refused) then
        some { s with pc := .check, hadWork := true }
      else
        let (db, requeued) := requeueExpiredRunning dbNow cfg.batchSize locked s.db
        some { s with pc := .check, db := db, hadWork := 0 < requeued }
    | .check, .check =>
      if s.claimed < cfg.batchSize then
        if s.cancelled then some (s.finish s.hadWork) else some { s with pc := .claim }
      else some (s.finish (0 < s.claimed || s.hadWork))
    | .claim fault now dbNow rand locked, .claim =>
      some (s.claimStep nulls cfg fault now dbNow rand locked)
    | .submit accepted, .submit job =>
      if accepted then if s.cancelled then none else some s.accept
      else some { s with pc := .release job }
    | .release dbNow, .release job =>
      if s.cancelled then some (s.finish true)
      else
        let (db, _) := releaseClaim dbNow job "worker pool rejected claimed job" s.db
        some ({ s with db := db }.finish true)
    | _, _ => none

/-- The steps that leave a claim behind: a claim that takes a row and returns an error, and a
release under a cancelled context. -/
def Pass.abandons (nulls : NullText) (cfg : ReconcilerConfig) (s : Pass) : PassAct → Bool
  | .claim fault now dbNow rand locked =>
    let fault := passFault s.cancelled fault
    let call := claimCall cfg now dbNow rand locked
    (takenRow fault call s.db).isSome &&
      match (claimNextJobCall nulls fault call s.db).2 with
      | .ok _ => false
      | .error _ => true
  | .release _ => s.cancelled
  | _ => false

/-! ### The moves of a pass -/

/-- What a claim does: it takes no row and fails, or its statement takes a row, and the scan of the
row decides. -/
theorem claimNextJobCall_cases (nulls : NullText) (fault : Option ClaimFault) (call : ClaimCall)
    (db : Jobs) :
    (∃ e, takenRow fault call db = none ∧
        claimNextJobCall nulls fault call db = (db, .error e)) ∨
      ∃ r, takenRow fault call db = some r ∧ db.find? r.id = some r ∧
        claimNextJobCall nulls fault call db = claimNextJob nulls call db ∧
        claimNextJob nulls call db =
          (db.update (fun x => x.id = r.id) (claimEdit call),
            scanJob nulls ((claimEdit call).apply r)) := by
  match fault with
  | some .leaseToken => exact .inl ⟨_, rfl, rfl⟩
  | some .statement => exact .inl ⟨_, rfl, rfl⟩
  | none =>
      rcases claimNextJob_spec nulls call db with ⟨hsel, hclaim⟩ | ⟨r, hsel, hfind, -, hclaim⟩
      · exact .inl ⟨_, hsel, hclaim⟩
      · exact .inr ⟨r, hsel, hfind, rfl, hclaim⟩

/-- A job as the pass holds it: its row is `RUNNING` under its token. -/
def HeldRow (db : Jobs) (job : Job) : Prop :=
  ∃ r, db.find? job.id = some r ∧ holdsClaim job r = true

/-- The moves of a pass, one by one. -/
inductive PassStep (nulls : NullText) (cfg : ReconcilerConfig) (s : Pass) : PassAct → Pass → Prop
  | cancelled : PassStep nulls cfg s .cancel { s with cancelled := true }
  | other {db : Jobs} (h : s.pc ≠ .returned)
      (hrow : ∀ job ∈ s.pc.inHand, db.find? job.id = s.db.find? job.id) :
      PassStep nulls cfg s (.other db) { s with db := db }
  | requeued {refused : Bool} {dbNow : Timestamp} {locked : List String} {db : Jobs}
      {hadWork : Bool} (h : s.pc = .requeue)
      (hdb : db = s.db ∨ db = (requeueExpiredRunning dbNow cfg.batchSize locked s.db).1) :
      PassStep nulls cfg s (.requeue refused dbNow locked)
        { s with pc := .check, db := db, hadWork := hadWork }
  | ended {hadWork : Bool} (h : s.pc = .check) :
      PassStep nulls cfg s .check (s.finish hadWork)
  | entered (h : s.pc = .check) : PassStep nulls cfg s .check { s with pc := .claim }
  | noClaim {fault : Option ClaimFault} {now : Time} {dbNow : Timestamp} {rand : RandomBytes}
      {locked : List String} {hadWork : Bool} (h : s.pc = .claim)
      (hkeep : s.abandons nulls cfg (.claim fault now dbNow rand locked) = false) :
      PassStep nulls cfg s (.claim fault now dbNow rand locked) (s.finish hadWork)
  | claimed {fault : Option ClaimFault} {now : Time} {dbNow : Timestamp} {rand : RandomBytes}
      {locked : List String} {job : Job} {db : Jobs} (h : s.pc = .claim)
      (hkeep : s.abandons nulls cfg (.claim fault now dbNow rand locked) = false)
      (hclaim : claimNextJob nulls (claimCall cfg now dbNow rand locked) s.db = (db, .ok job))
      (hheld : HeldRow db job) :
      PassStep nulls cfg s (.claim fault now dbNow rand locked)
        { s with pc := .submit job, db := db, claims := ⟨job.id, false⟩ :: s.claims }
  | lost {fault : Option ClaimFault} {now : Time} {dbNow : Timestamp} {rand : RandomBytes}
      {locked : List String} {id : String} {r : Row} {db : Jobs} {e : StoreError}
      {hadWork : Bool} (h : s.pc = .claim)
      (hlost : s.abandons nulls cfg (.claim fault now dbNow rand locked) = true)
      (hclaim : claimNextJob nulls (claimCall cfg now dbNow rand locked) s.db = (db, .error e))
      (hfind : db.find? id = some r) (hrunning : r.state = .running) :
      PassStep nulls cfg s (.claim fault now dbNow rand locked)
        ({ s with db := db, claims := ⟨id, false⟩ :: s.claims }.finish hadWork)
  | accepted {job : Job} (h : s.pc = .submit job) :
      PassStep nulls cfg s (.submit true) s.accept
  | rejected {job : Job} (h : s.pc = .submit job) :
      PassStep nulls cfg s (.submit false) { s with pc := .release job }
  | released {job : Job} {dbNow : Timestamp} (h : s.pc = .release job)
      (hlive : s.cancelled = false) :
      PassStep nulls cfg s (.release dbNow)
        ({ s with
            db := (releaseClaim dbNow job "worker pool rejected claimed job" s.db).1 }.finish true)
  | notReleased {job : Job} {dbNow : Timestamp} (h : s.pc = .release job)
      (hcancelled : s.cancelled = true) :
      PassStep nulls cfg s (.release dbNow) (s.finish true)

section Moves

variable {nulls : NullText} {cfg : ReconcilerConfig} {s s' : Pass} {act : PassAct}

/-- A pass that has returned makes no step. -/
theorem reconcileStep_returned (h : s.pc = .returned) (act : PassAct) :
    reconcileStep nulls cfg s act = none := by
  unfold reconcileStep
  exact if_pos h

/-- A claim that fails ends the pass. -/
theorem Pass.afterClaim_error (s : Pass) (e : StoreError) :
    ∃ hadWork, s.afterClaim (.error e) = s.finish hadWork := by
  cases e with
  | jobNotFound => exact ⟨_, rfl⟩
  | _ => exact ⟨true, rfl⟩

/-- The moves of a claim. -/
theorem passStep_claim {fault : Option ClaimFault} {now : Time} {dbNow : Timestamp}
    {rand : RandomBytes} {locked : List String} (hpc : s.pc = .claim)
    (h : some (s.claimStep nulls cfg fault now dbNow rand locked) = some s') :
    PassStep nulls cfg s (.claim fault now dbNow rand locked) s' := by
  simp only [Pass.claimStep] at h
  rcases claimNextJobCall_cases nulls (passFault s.cancelled fault)
    (claimCall cfg now dbNow rand locked) s.db with ⟨e, htaken, hcall⟩ |
      ⟨r, htaken, hfind, hcall, hclaim⟩
  · have hkeep : s.abandons nulls cfg (.claim fault now dbNow rand locked) = false := by
      simp [Pass.abandons, htaken]
    rw [htaken, hcall] at h
    obtain rfl := Option.some.inj h
    obtain ⟨hadWork, hend⟩ := (s.take s.db none).afterClaim_error e
    rw [hend]
    exact .noClaim hpc hkeep
  · rw [htaken, hcall, hclaim] at h
    obtain rfl := Option.some.inj h
    have hrow := find?_claimEdit hfind (claimCall cfg now dbNow rand locked)
    cases hscan : scanJob nulls ((claimEdit (claimCall cfg now dbNow rand locked)).apply r) with
    | ok job =>
        rw [hscan] at hclaim
        have hkeep : s.abandons nulls cfg (.claim fault now dbNow rand locked) = false := by
          simp [Pass.abandons, hcall, hclaim]
        obtain ⟨rfl, -⟩ := scanJob_eq_ok_iff.mp hscan
        exact .claimed hpc hkeep hclaim ⟨_, hrow, by simp [holdsClaim, Row.toJob, claimEdit]⟩
    | error e =>
        rw [hscan] at hclaim
        have hlost : s.abandons nulls cfg (.claim fault now dbNow rand locked) = true := by
          simp [Pass.abandons, htaken, hcall, hclaim]
        obtain ⟨hadWork, hend⟩ := (s.take (s.db.update (fun x => x.id = r.id)
          (claimEdit (claimCall cfg now dbNow rand locked))) (some r)).afterClaim_error e
        simp only [hend]
        exact .lost hpc hlost hclaim hrow rfl

/-- Every move of `reconcileStep` is one of the listed moves. -/
theorem reconcileStep_sound (h : reconcileStep nulls cfg s act = some s') :
    PassStep nulls cfg s act s' := by
  unfold reconcileStep at h
  have hlive := (Option.ite_none_left_eq_some.mp h).1
  replace h := (Option.ite_none_left_eq_some.mp h).2
  split at h
  case h_1 => cases h; exact .cancelled
  case h_2 =>
    obtain ⟨hrow, h⟩ := Option.ite_none_right_eq_some.mp h
    cases h
    exact .other hlive hrow
  case h_3 hpc =>
    split at h
    · cases h
      exact .requeued hpc (.inl rfl)
    · cases h
      exact .requeued hpc (.inr rfl)
  case h_4 hpc =>
    split at h
    · split at h
      · cases h
        exact .ended hpc
      · cases h
        exact .entered hpc
    · cases h
      exact .ended hpc
  case h_5 hpc => exact passStep_claim hpc h
  case h_6 accepted job hpc =>
    cases accepted with
    | true =>
        obtain ⟨-, h⟩ := Option.ite_none_left_eq_some.mp h
        cases h
        exact .accepted hpc
    | false =>
        cases h
        exact .rejected hpc
  case h_7 dbNow job hpc =>
    split at h
    · rename_i hcancelled
      cases h
      exact .notReleased hpc hcancelled
    · rename_i hcancelled
      cases h
      exact .released hpc (Bool.eq_false_iff.mpr hcancelled)
  case h_8 => cases h

end Moves

/-! ### Settled claims -/

/-- Every claim of the pass has been accepted by the pool, or its row is `PENDING` again. -/
def Pass.Settled (s : Pass) : Prop :=
  ∀ c ∈ s.claims, c.accepted = true ∨ ∃ r, s.db.find? c.id = some r ∧ r.state = .pending

/-- What a pass owes at each point: in the loop every claim has been accepted; with a job in hand
the latest claim is that job's, and its row is still held; at the end every claim is settled. -/
def Pass.Ok (s : Pass) : Prop :=
  match s.pc with
  | .requeue | .check | .claim => ∀ c ∈ s.claims, c.accepted = true
  | .submit job | .release job =>
    ∃ older, s.claims = ⟨job.id, false⟩ :: older ∧ (∀ c ∈ older, c.accepted = true) ∧
      HeldRow s.db job
  | .returned => s.Settled

section Claims

variable {nulls : NullText} {cfg : ReconcilerConfig} {s s' : Pass} {act : PassAct}

/-- A pass whose claims have all been accepted may return. -/
theorem Pass.ok_finish (h : ∀ c ∈ s.claims, c.accepted = true) (hadWork : Bool) :
    (s.finish hadWork).Ok :=
  fun c hc => .inl (h c hc)

/-- A `RUNNING` row of a claim that was not accepted is not settled. -/
theorem Pass.not_settled {id : String} {r : Row} {older : List PassClaim}
    (hclaims : s.claims = ⟨id, false⟩ :: older) (hfind : s.db.find? id = some r)
    (hrunning : r.state = .running) : ¬ s.Settled := by
  intro hsettled
  rcases hsettled ⟨id, false⟩ (by rw [hclaims]; exact List.mem_cons_self) with
    haccepted | ⟨r', hfind', hpending⟩
  · cases haccepted
  · rw [hfind] at hfind'
    obtain rfl := Option.some.inj hfind'
    rw [hrunning] at hpending
    cases hpending

/-- A held job that is released is `PENDING` again. -/
theorem HeldRow.release {db : Jobs} {job : Job} (h : HeldRow db job) (dbNow : Timestamp)
    (reason : String) :
    ∃ r, (releaseClaim dbNow job reason db).1.find? job.id = some r ∧ r.state = .pending := by
  obtain ⟨r, hfind, hr⟩ := h
  exact ⟨_, find?_releaseClaim hfind hr dbNow reason, rfl⟩

/-- A held job stays held while its row stays as it is. -/
theorem HeldRow.of_find? {db db' : Jobs} {job : Job} (h : HeldRow db job)
    (hrow : db'.find? job.id = db.find? job.id) : HeldRow db' job := by
  obtain ⟨r, hfind, hr⟩ := h
  exact ⟨r, hrow.trans hfind, hr⟩

/-- What a pass owes is not touched by other parties. -/
theorem Pass.Ok.other {db : Jobs} (hs : s.Ok) (hpc : s.pc ≠ .returned)
    (hrow : ∀ job ∈ s.pc.inHand, db.find? job.id = s.db.find? job.id) :
    ({ s with db := db } : Pass).Ok := by
  unfold Pass.Ok at hs ⊢
  cases hcase : s.pc with
  | returned => exact absurd hcase hpc
  | requeue | check | claim =>
      rw [hcase] at hs
      exact hs
  | submit job | release job =>
      rw [hcase] at hs hrow
      obtain ⟨older, hclaims, holder, hheld⟩ := hs
      exact ⟨older, hclaims, holder, hheld.of_find? (hrow job rfl)⟩

/-- **One move of a pass** keeps every claim accounted for, or abandons one and ends the pass. -/
theorem PassStep.settles (h : PassStep nulls cfg s act s') (hs : s.Ok) :
    (s.abandons nulls cfg act = false ∧ s'.Ok) ∨
      (s.abandons nulls cfg act = true ∧ s'.pc = .returned ∧ ¬ s'.Settled) := by
  unfold Pass.Ok at hs
  cases h with
  | cancelled => exact .inl ⟨rfl, hs⟩
  | other hpc hrow => exact .inl ⟨rfl, Pass.Ok.other hs hpc hrow⟩
  | requeued hpc =>
      rw [hpc] at hs
      exact .inl ⟨rfl, hs⟩
  | ended hpc =>
      rw [hpc] at hs
      exact .inl ⟨rfl, Pass.ok_finish hs _⟩
  | entered hpc =>
      rw [hpc] at hs
      exact .inl ⟨rfl, hs⟩
  | noClaim hpc hkeep =>
      rw [hpc] at hs
      exact .inl ⟨hkeep, Pass.ok_finish hs _⟩
  | claimed hpc hkeep _ hheld =>
      rw [hpc] at hs
      exact .inl ⟨hkeep, _, rfl, hs, hheld⟩
  | lost _ hlost _ hfind hrunning =>
      exact .inr ⟨hlost, rfl, Pass.not_settled rfl hfind hrunning⟩
  | accepted hpc =>
      rw [hpc] at hs
      obtain ⟨older, hclaims, holder, -⟩ := hs
      refine .inl ⟨rfl, fun c hc => ?_⟩
      simp only [Pass.accept, hclaims, List.modifyHead_cons, List.mem_cons] at hc
      rcases hc with rfl | hc
      · rfl
      · exact holder c hc
  | rejected hpc =>
      rw [hpc] at hs
      exact .inl ⟨rfl, hs⟩
  | @released job dbNow hpc hlive =>
      rw [hpc] at hs
      obtain ⟨older, hclaims, holder, hheld⟩ := hs
      refine .inl ⟨hlive, fun c hc => ?_⟩
      simp only [Pass.finish, hclaims, List.mem_cons] at hc
      rcases hc with rfl | hc
      · exact .inr (hheld.release dbNow _)
      · exact .inl (holder c hc)
  | notReleased hpc hcancelled =>
      rw [hpc] at hs
      obtain ⟨older, hclaims, -, r, hfind, hr⟩ := hs
      simp only [holdsClaim, decide_eq_true_eq] at hr
      exact .inr ⟨hcancelled, rfl, Pass.not_settled hclaims hfind hr.2.1⟩

/-- What a pass owes when it returns is that its claims are settled. -/
theorem Pass.ok_iff_settled (h : s.pc = .returned) : s.Ok ↔ s.Settled := by
  unfold Pass.Ok
  rw [h]

/-- **Claims of a pass.** When `reconcile` returns, every job it has claimed in the pass has been
accepted by the pool or is `PENDING` again if and only if no claim of the pass took a row and
returned an error, and no claim was released under a cancelled context. -/
theorem settled_iff (nulls : NullText) (cfg : ReconcilerConfig) (db : Jobs) (as : List PassAct)
    (s : Pass) (h : exec (reconcileStep nulls cfg) (.init db) as = some s)
    (hret : s.pc = .returned) :
    s.Settled ↔
      AllSteps (reconcileStep nulls cfg) (fun u a _ => u.abandons nulls cfg a = false)
        (.init db) as := by
  have hinit : (Pass.init db).Ok := fun _ hc => absurd hc List.not_mem_nil
  have hall : AllSteps (reconcileStep nulls cfg) (fun _ _ _ => True) (.init db) as :=
    fun _ _ _ _ _ _ _ _ => trivial
  have hverdict := hall.verdict (P := fun u a _ => u.abandons nulls cfg a = false)
    (B := fun u => u.pc = .returned ∧ ¬ u.Settled) (fun u a v hu ha _ => ?_) ?_ hinit h
  · rcases hverdict with ⟨hkept, hok⟩ | ⟨hlost, -, hnot⟩
    · exact iff_of_true ((Pass.ok_iff_settled hret).mp hok) hkept
    · exact iff_of_false hnot hlost
  · rw [Bool.not_eq_false]
    exact (reconcileStep_sound ha).settles hu
  · rintro u a v ⟨hreturned, -⟩ ha _
    rw [reconcileStep_returned hreturned] at ha
    cases ha

end Claims

/-! ### The pass in the system

A pass by itself is a run of the system: its claim takes a free slot, and the slot goes on with the
job. -/

/-- The pass and the system have the table in common, and the job in hand is in a slot after which
all slots are free. -/
def Pass.InSystem (s : Pass) (u : Sys) : Prop :=
  u.db = s.db ∧ ∃ i, (∀ j, i < j → (u.workers j).pc = .idle) ∧
    match s.pc with
    | .submit job => u.workers i = ⟨.claimed, job, false⟩
    | .release job => u.workers i = ⟨.release "worker pool rejected claimed job", job, false⟩
    | _ => True

section System

variable {nulls : NullText} {cfg : ReconcilerConfig} {s s' : Pass} {act : PassAct} {u : Sys}

/-- A slot of the system moves, and all later ones stay free. -/
theorem idle_update {i j : ℕ} (hfree : ∀ k, i < k → (u.workers k).pc = .idle) (hij : i ≤ j)
    (w : Worker) : ∀ k, j < k → (Function.update u.workers j w k).pc = .idle := by
  intro k hk
  rw [Function.update_of_ne (by omega)]
  exact hfree k (by omega)

/-- The system makes a move of a worker. -/
theorem exec_worker {n : ℤ} {i : ℕ} {w : Worker} {db : Jobs} (act : WorkerAct)
    (h : workerStep ⟨nulls, n⟩ u.db (u.workers i) act = some (db, w)) :
    exec (step ⟨nulls, n⟩) u [.worker i act] =
      some { u with db := db, workers := Function.update u.workers i w } := by
  rw [exec_singleton, step, h]

/-- Every move of a pass, but for those of other parties, is a run of the system. -/
theorem PassStep.inSystem (h : PassStep nulls cfg s act s') (hown : ∀ db, act ≠ .other db)
    (hs : s.InSystem u) (n : ℤ) :
    ∃ bs u', exec (step ⟨nulls, n⟩) u bs = some u' ∧ s'.InSystem u' := by
  obtain ⟨hdb, i, hfree, hslot⟩ := hs
  have hnext : (u.workers (i + 1)).pc = .idle := hfree (i + 1) (Nat.lt_succ_self i)
  cases h with
  | cancelled => exact ⟨[], u, rfl, hdb, i, hfree, hslot⟩
  | @other db => exact absurd rfl (hown db)
  | @requeued _ dbNow locked db _ _ hrequeue =>
      rcases hrequeue with rfl | rfl
      · exact ⟨[], u, rfl, hdb, i, hfree, trivial⟩
      · refine ⟨[.requeue dbNow cfg.batchSize locked], _, rfl, ?_, i, hfree, trivial⟩
        dsimp only
        rw [hdb]
  | ended => exact ⟨[], u, rfl, hdb, i, hfree, trivial⟩
  | entered => exact ⟨[], u, rfl, hdb, i, hfree, trivial⟩
  | noClaim => exact ⟨[], u, rfl, hdb, i, hfree, trivial⟩
  | @claimed _ now dbNow rand locked job db _ _ hclaim =>
      refine ⟨[.claimNext (i + 1) (claimCall cfg now dbNow rand locked)],
        { u with db := db, workers := Function.update u.workers (i + 1) ⟨.claimed, job, false⟩ },
        ?_, rfl, i + 1, idle_update hfree (Nat.le_succ i) _, Function.update_self _ _ _⟩
      rw [exec_singleton, step, if_pos hnext, hdb, hclaim]
  | @lost _ now dbNow rand locked _ _ db _ _ _ _ hclaim =>
      refine ⟨[.claimNext (i + 1) (claimCall cfg now dbNow rand locked)], { u with db := db },
        ?_, rfl, i, hfree, trivial⟩
      rw [exec_singleton, step, if_pos hnext, hdb, hclaim]
  | accepted hpc =>
      rw [hpc] at hslot
      exact ⟨_, _, exec_worker (.submit true) (by rw [hslot]; rfl), hdb, i,
        idle_update hfree (le_refl i) _, trivial⟩
  | rejected hpc =>
      rw [hpc] at hslot
      exact ⟨_, _, exec_worker (.submit false) (by rw [hslot]; rfl), hdb, i,
        idle_update hfree (le_refl i) _, Function.update_self _ _ _⟩
  | @released job dbNow hpc _ =>
      rw [hpc] at hslot
      refine ⟨_, _, exec_worker (.releaseClaim dbNow) (by rw [hslot]; rfl), ?_, i,
        idle_update hfree (le_refl i) _, trivial⟩
      rw [hdb]
      rfl
  | notReleased hpc =>
      rw [hpc] at hslot
      exact ⟨_, _, exec_worker .storeFail (by rw [hslot]; rfl), hdb, i,
        idle_update hfree (le_refl i) _, trivial⟩

/-- **A pass in the system.** What a pass does to the table by itself, a run of the system does. -/
theorem exists_exec_of_pass {as : List PassAct} {i : ℕ}
    (hfree : ∀ j, i < j → (u.workers j).pc = .idle)
    (h : exec (reconcileStep nulls cfg) (.init u.db) as = some s)
    (hown : ∀ a ∈ as, ∀ db, a ≠ .other db) (n : ℤ) :
    ∃ bs u', exec (step ⟨nulls, n⟩) u bs = some u' ∧ u'.db = s.db := by
  have hall : AllSteps (reconcileStep nulls cfg) (fun _ a _ => ∀ db, a ≠ .other db)
      (.init u.db) as := by
    rintro pre a post v w rfl - -
    exact hown a (List.mem_append_right _ List.mem_cons_self)
  have hinit : (Pass.init u.db).InSystem u := ⟨rfl, i, hfree, trivial⟩
  have hsim : ∀ v a v' x, Pass.InSystem v x → reconcileStep nulls cfg v a = some v' →
      (∀ db, a ≠ .other db) → ∃ bs x', exec (step ⟨nulls, n⟩) x bs = some x' ∧ v'.InSystem x' :=
    fun v a v' x hv ha hQ => (reconcileStep_sound ha).inSystem hQ hv n
  obtain ⟨bs, u', hbs, hin⟩ := hall.simulation hsim hinit h
  exact ⟨bs, u', hbs, hin.1⟩

end System

/-! ### Two passes -/

/-- The table with the sample job in it. -/
def sampleTable : Jobs :=
  match createJob 0 (prepareJob (sampleRandom 0) 0 (requestJob sampleRequest)) empty with
  | .ok t => t
  | .error _ => empty

/-- The configuration with every default. -/
def defaultReconciler : ReconcilerConfig := newReconciler ⟨0, 0, 0, 0⟩

/-- The pass claims the sample job, and the pool rejects it. -/
def rejectedPass (meanwhile : List PassAct) : List PassAct :=
  [.requeue false 0 [], .check, .claim none 0 0 (sampleRandom 1) []] ++ meanwhile ++
    [.submit false, .release 0]

/-- A job that the pool rejects under a live context is released. -/
theorem settled_rejectedPass :
    ∃ s, exec (reconcileStep .reject defaultReconciler) (.init sampleTable) (rejectedPass []) =
        some s ∧
      s.pc = .returned ∧ s.claims = [⟨sampleId, false⟩] ∧ s.Settled := by
  obtain ⟨s, hs, hcheck⟩ := (Option.any_eq_true _ _).mp
    (show (exec (reconcileStep .reject defaultReconciler) (.init sampleTable)
      (rejectedPass [])).any
        (fun s => s.pc = .returned ∧ s.claims = [⟨sampleId, false⟩]) = true by decide +kernel)
  obtain ⟨hret, hclaims⟩ := of_decide_eq_true hcheck
  refine ⟨s, hs, hret, hclaims, (settled_iff _ _ _ _ s hs hret).mpr ?_⟩
  exact allSteps_of_checkSteps_not (by decide +kernel)

/-- If the context is cancelled while the pool is waited for, the job stays `RUNNING`: the pool has
not accepted it and the release has failed. -/
theorem not_settled_rejectedPass :
    ∃ s, exec (reconcileStep .reject defaultReconciler) (.init sampleTable)
        (rejectedPass [.cancel]) = some s ∧
      s.pc = .returned ∧ s.claims = [⟨sampleId, false⟩] ∧
      (s.db.find? sampleId).map Row.state = some .running ∧ ¬ s.Settled := by
  obtain ⟨s, hs, hcheck⟩ := (Option.any_eq_true _ _).mp
    (show (exec (reconcileStep .reject defaultReconciler) (.init sampleTable)
      (rejectedPass [.cancel])).any
        (fun s => s.pc = .returned ∧ s.claims = [⟨sampleId, false⟩] ∧
          (s.db.find? sampleId).map Row.state = some .running) = true by decide +kernel)
  obtain ⟨hret, hclaims, hstate⟩ := of_decide_eq_true hcheck
  obtain ⟨r, hfind, hrunning⟩ := Option.map_eq_some_iff.mp hstate
  exact ⟨s, hs, hret, hclaims, hstate, Pass.not_settled hclaims hfind hrunning⟩

end Conduit
