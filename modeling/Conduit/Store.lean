import Mathlib.Data.List.Sort
import Conduit.Row

/-!
# The Store Operations

The operations of `PostgresStore` on the `jobs` table. One SQL statement is one function
on the table; a store call that issues two statements is two functions, because other
parties run between them. `UpdateJob` and `CancelJob` are of this kind: a `GetJob` read
with the transition test (`updateJobCheck`, `cancelJobCheck`) and a separate conditional
`UPDATE` (`updateJobExec`, `cancelJobExec`).

Each statement takes as arguments what it reads from outside the table: the clock of the
calling process (`now`), the clock of the database (`dbNow`, SQL `NOW()`), and for the two
`FOR UPDATE SKIP LOCKED` statements the ids that other transactions hold locked. A tie in
an `ORDER BY` that Postgres breaks in favour of a later row is a run in which the earlier
tied rows are skipped.

## Main results

* `canTransition_of_terminal`: no transition leaves `COMPLETED` or `DEAD`.
* `execUpdate_of_match`, `execUpdate_of_no_match`: a conditional single-row update either
  finds its row and succeeds, or changes nothing and returns `ErrInvalidTransition`.
* `claimNextJob_spec`: a claim takes one due `PENDING` row, or changes nothing.
-/

namespace Conduit

open KeyedTable

/-! ### The state machine -/

/-- `CanTransition`. -/
def canTransition (src dst : JobState) : Bool :=
  if src = .completed ∨ src = .dead then false
  else
    match src with
    | .pending => dst = .running ∨ dst = .dead
    | .running => dst = .completed ∨ dst = .failed ∨ dst = .dead
    | .failed => dst = .pending ∨ dst = .dead
    | _ => false

/-- No transition leaves a terminal state. -/
theorem canTransition_of_terminal {src : JobState} (h : src.terminal = true)
    (dst : JobState) : canTransition src dst = false := by
  cases src <;> simp_all [canTransition, JobState.terminal]

/-! ### Creating and reading -/

/-- `CreateJob`, for a statement the server runs: a violation of the idempotency index is
reported under its own error, any other violation as it is. -/
def createJob (now : Time) (job : Job) (t : Jobs) : Except StoreError Jobs :=
  match t.insert? (insertRow now job) with
  | .ok t' => .ok t'
  | .error .uniqueIndex => .error .duplicateIdempotencyKey
  | .error .primaryKey => .error .primaryKey

/-- `GetJob`. -/
def getJob (nulls : NullText) (id : String) (t : Jobs) : Except StoreError Job :=
  match t.find? id with
  | none => .error .jobNotFound
  | some r => scanJob nulls r

/-- `GetJobByIdempotencyKey`. -/
def getJobByIdempotencyKey (nulls : NullText) (idempotencyKey : String) (t : Jobs) :
    Except StoreError Job :=
  match t.findUniq? idempotencyKey with
  | none => .error .jobNotFound
  | some r => scanJob nulls r

/-- A successful `CreateJob` inserts the job's row under a key that was free. -/
theorem find?_createJob {now : Time} {job : Job} {t t' : Jobs}
    (h : createJob now job t = .ok t') (k : String) :
    t'.find? k = if job.id = k then some (insertRow now job) else t.find? k := by
  unfold createJob at h
  split at h
  · rename_i t'' hins
    cases h
    exact find?_insert? hins k
  · cases h
  · cases h

/-- The key of a created job was free. -/
theorem find?_of_createJob {now : Time} {job : Job} {t t' : Jobs}
    (h : createJob now job t = .ok t') : t.find? job.id = none := by
  unfold createJob at h
  split at h
  · rename_i t'' hins
    cases h
    exact find?_of_insert? hins
  · cases h
  · cases h

/-- `GetJob` succeeds on an existing row that scans, and returns its job. -/
theorem getJob_eq_ok_iff {nulls : NullText} {id : String} {t : Jobs} {job : Job} :
    getJob nulls id t = .ok job ↔
      ∃ r, t.find? id = some r ∧ job = r.toJob ∧ (nulls = .empty ∨ r.TextsPresent) := by
  unfold getJob
  cases hfind : t.find? id with
  | none => simp
  | some r => simp [scanJob_eq_ok_iff]

/-- The read of a job and the transition test on it, by the row: the part that `UpdateJob`
and `CancelJob` share. -/
theorem getJob_allows_iff {nulls : NullText} {id : String} {t : Jobs} {dst : JobState} :
    (∃ existing, getJob nulls id t = .ok existing ∧
        canTransition existing.state dst = true) ↔
      ∃ r, t.find? id = some r ∧ (nulls = .empty ∨ r.TextsPresent) ∧
        canTransition r.state dst = true := by
  constructor
  · rintro ⟨existing, hget, hcan⟩
    obtain ⟨r, hfind, rfl, htexts⟩ := getJob_eq_ok_iff.mp hget
    exact ⟨r, hfind, htexts, hcan⟩
  · rintro ⟨r, hfind, htexts, hcan⟩
    exact ⟨r.toJob, getJob_eq_ok_iff.mpr ⟨r, hfind, rfl, htexts⟩, hcan⟩

/-! ### Conditional single-row updates -/

/-- `Exec` of an `UPDATE` followed by the `RowsAffected() == 0` test, which `UpdateJob`,
`RenewLease` and `ReleaseClaim` share. -/
def execUpdate (t : Jobs) (p : Row → Bool) (e : RowEdit) : Jobs × Except StoreError Unit :=
  (t.update p e,
    if t.affected p = 0 then .error .invalidTransition else .ok ())

/-- An update that finds its row succeeds. -/
theorem execUpdate_of_match {t : Jobs} {p : Row → Bool} (e : RowEdit) {id : String} {r : Row}
    (hp : ∀ x, p x = true → x.id = id) (hfind : t.find? id = some r) (hr : p r = true) :
    (execUpdate t p e).2 = .ok () := by
  have haff : t.affected p = 1 := by
    rw [affected_eq_of_key t hp, hfind, Option.any_some, hr, if_pos rfl]
  simp [execUpdate, haff]

/-- An update that finds no row changes nothing and returns `ErrInvalidTransition`. -/
theorem execUpdate_of_no_match {t : Jobs} {p : Row → Bool} (e : RowEdit) {id : String}
    (hp : ∀ x, p x = true → x.id = id) (hnone : ∀ r, t.find? id = some r → p r = false) :
    execUpdate t p e = (t, .error .invalidTransition) := by
  have hrows : ∀ r ∈ t.rows, p r = false := by
    intro r hr
    by_contra hpr
    have hpr' : p r = true := by simpa using hpr
    have hid : r.id = id := hp r hpr'
    exact hpr (hnone r (hid ▸ find?_of_mem hr))
  have haff : t.affected p = 0 := by
    rw [affected, List.countP_eq_zero]
    intro r hr
    simp [hrows r hr]
  rw [execUpdate, update_eq_self e hrows, haff, if_pos rfl]

/-- A conditional single-row update reports success exactly when it found its row. -/
theorem execUpdate_ok_iff {t : Jobs} {p : Row → Bool} {e : RowEdit} {id : String}
    (hp : ∀ x, p x = true → x.id = id) :
    (execUpdate t p e).2 = .ok () ↔ ∃ r, t.find? id = some r ∧ p r = true := by
  constructor
  · intro hok
    by_contra hcon
    have hnone : ∀ r, t.find? id = some r → p r = false := by
      intro r hr
      by_contra hpr
      exact hcon ⟨r, hr, by simpa using hpr⟩
    rw [execUpdate_of_no_match e hp hnone] at hok
    cases hok
  · rintro ⟨r, hfind, hr⟩
    exact execUpdate_of_match e hp hfind hr

/-- The table after a conditional update, row by row. -/
theorem find?_execUpdate (t : Jobs) (p : Row → Bool) (e : RowEdit) (k : String) :
    (execUpdate t p e).1.find? k = (t.find? k).map (editWhere p e) :=
  find?_update t p e k

/-! ### `UpdateJob` -/

/-- The `GetJob` read of `UpdateJob` and its transition test. -/
def updateJobCheck (nulls : NullText) (job : Job) (t : Jobs) : Except StoreError Unit :=
  match getJob nulls job.id t with
  | .error e => .error e
  | .ok existing =>
    if canTransition existing.state job.state then .ok () else .error .invalidTransition

/-- The `WHERE` clause of `UpdateJob`. -/
def updateMatches (job : Job) (r : Row) : Bool :=
  r.id = job.id ∧
    (job.leaseToken = "" ∨ r.leaseToken = some job.leaseToken ∨
      (r.state = .pending ∧ job.state = .running ∧ r.leaseToken = none))

/-- The `SET` clause of `UpdateJob`. The lease token survives only in a state other than
`COMPLETED`, `DEAD` and `PENDING`. -/
def updateEdit (now : Time) (job : Job) : RowEdit where
  apply r :=
    { r with
      state := job.state
      attempt := job.attempt
      lastError := some job.lastError
      scheduledAt := job.scheduledAt.map toTimestamp
      startedAt := job.startedAt.map toTimestamp
      leaseExpiresAt := job.leaseExpiresAt.map toTimestamp
      leaseToken :=
        if job.state = .completed ∨ job.state = .dead ∨ job.state = .pending then none
        else nullableString job.leaseToken
      completedAt := job.completedAt.map toTimestamp
      updatedAt := toTimestamp now
      metadata := some (marshalMap job.metadata)
      taskMetadata := some (marshalMap job.task.metadata)
      taskRetryCount := job.task.retryCount }
  key_apply _ := rfl
  uniq_apply _ := rfl

/-- The `UPDATE` of `UpdateJob`. -/
def updateJobExec (now : Time) (job : Job) (t : Jobs) : Jobs × Except StoreError Unit :=
  execUpdate t (updateMatches job) (updateEdit now job)

theorem updateMatches_id {job : Job} {r : Row} (h : updateMatches job r = true) :
    r.id = job.id := by
  simp only [updateMatches, decide_eq_true_eq] at h
  exact h.1

/-- A row that has the token of the job is the one its `UPDATE` is for. -/
theorem updateMatches_of_token {t : Jobs} {job : Job} {r : Row} (hfind : t.find? job.id = some r)
    (htoken : r.leaseToken = some job.leaseToken) : updateMatches job r = true :=
  decide_eq_true ⟨key_of_find? hfind, .inr (.inl htoken)⟩

/-- `UpdateJob` passes its test exactly when the row scans and allows the transition. -/
theorem updateJobCheck_eq_ok_iff {nulls : NullText} {job : Job} {t : Jobs} :
    updateJobCheck nulls job t = .ok () ↔
      ∃ r, t.find? job.id = some r ∧ (nulls = .empty ∨ r.TextsPresent) ∧
        canTransition r.state job.state = true := by
  rw [← getJob_allows_iff, updateJobCheck]
  cases getJob nulls job.id t <;> simp

/-! ### `CancelJob` -/

/-- The `GetJob` read of `CancelJob` and its transition test. -/
def cancelJobCheck (nulls : NullText) (id : String) (t : Jobs) : Except StoreError Unit :=
  match getJob nulls id t with
  | .error e => .error e
  | .ok job => if canTransition job.state .dead then .ok () else .error .invalidTransition

/-- The `SET` clause of `CancelJob`. -/
def cancelEdit (now : Time) : RowEdit where
  apply r := { r with state := .dead, updatedAt := toTimestamp now }
  key_apply _ := rfl
  uniq_apply _ := rfl

/-- The `UPDATE` of `CancelJob`: it names the row by its id alone and does not look at the
number of rows affected. -/
def cancelJobExec (now : Time) (id : String) (t : Jobs) : Jobs × Except StoreError Unit :=
  (t.update (fun r => r.id = id) (cancelEdit now), .ok ())

/-- `CancelJob` passes its test exactly when the row scans and may go to `DEAD`. -/
theorem cancelJobCheck_eq_ok_iff {nulls : NullText} {id : String} {t : Jobs} :
    cancelJobCheck nulls id t = .ok () ↔
      ∃ r, t.find? id = some r ∧ (nulls = .empty ∨ r.TextsPresent) ∧
        canTransition r.state .dead = true := by
  rw [← getJob_allows_iff, cancelJobCheck]
  cases getJob nulls id t <;> simp

/-! ### `ClaimNextJob` -/

/-- What one call of `ClaimNextJob` reads from outside the table. -/
structure ClaimCall where
  now : Time
  dbNow : Timestamp
  lease : Duration
  rand : RandomBytes
  locked : List String

/-- The `WHERE` clause of the selection, rows locked elsewhere skipped. -/
def claimable (c : ClaimCall) (r : Row) : Bool :=
  r.state = .pending ∧ (∀ ts ∈ r.scheduledAt, ts ≤ c.dbNow) ∧ r.id ∉ c.locked

/-- `ORDER BY scheduled_at ASC NULLS LAST`. -/
def scheduledBefore (a b : Row) : Bool :=
  match a.scheduledAt, b.scheduledAt with
  | some x, some y => x ≤ y
  | none, some _ => false
  | _, none => true

/-- The row the selection returns: the first due one. -/
def selectDue (c : ClaimCall) (t : Jobs) : Option Row :=
  ((t.rows.filter (claimable c)).insertionSort (scheduledBefore · ·)).head?

/-- The `SET` clause of `ClaimNextJob`. -/
def claimEdit (c : ClaimCall) : RowEdit where
  apply r :=
    { r with
      state := .running
      attempt := r.attempt + 1
      startedAt := some (toTimestamp c.now)
      leaseExpiresAt := some (toTimestamp (c.now + c.lease))
      leaseToken := some (newLeaseToken c.rand)
      updatedAt := toTimestamp c.now }
  key_apply _ := rfl
  uniq_apply _ := rfl

/-- `ClaimNextJob`. The statement takes effect on the server; the row it returns is
scanned afterwards, and a scan that fails does not undo it. -/
def claimNextJob (nulls : NullText) (c : ClaimCall) (t : Jobs) :
    Jobs × Except StoreError Job :=
  match selectDue c t with
  | none => (t, .error .jobNotFound)
  | some r =>
    (t.update (fun x => x.id = r.id) (claimEdit c), scanJob nulls ((claimEdit c).apply r))

/-- The ways `ClaimNextJob` ends before its statement takes effect: no random bytes for
the token, or a statement the server refuses. -/
inductive ClaimFault
  | leaseToken
  | statement

/-- A call of `ClaimNextJob`, with the fault that ends it early, if any. -/
def claimNextJobCall (nulls : NullText) (fault : Option ClaimFault) (c : ClaimCall)
    (t : Jobs) : Jobs × Except StoreError Job :=
  match fault with
  | some .leaseToken => (t, .error .leaseToken)
  | some .statement => (t, .error .statement)
  | none => claimNextJob nulls c t

/-- The selected row is a due `PENDING` row of the table that nobody holds locked. -/
theorem selectDue_spec {c : ClaimCall} {t : Jobs} {r : Row} (h : selectDue c t = some r) :
    t.find? r.id = some r ∧ r.state = .pending ∧ claimable c r = true := by
  have hmem : r ∈ (t.rows.filter (claimable c)).insertionSort (scheduledBefore · ·) :=
    List.mem_of_head? h
  rw [List.mem_insertionSort, List.mem_filter] at hmem
  obtain ⟨hrow, hclaim⟩ := hmem
  refine ⟨find?_of_mem hrow, ?_, hclaim⟩
  simp only [claimable, decide_eq_true_eq] at hclaim
  exact hclaim.1

/-- **The claim.** It returns the table as it was, or moves one due `PENDING` row to
`RUNNING` under the call's token and returns the scan of that row. -/
theorem claimNextJob_spec (nulls : NullText) (c : ClaimCall) (t : Jobs) :
    (selectDue c t = none ∧ claimNextJob nulls c t = (t, .error .jobNotFound)) ∨
      ∃ r, selectDue c t = some r ∧ t.find? r.id = some r ∧ r.state = .pending ∧
        claimNextJob nulls c t =
          (t.update (fun x => x.id = r.id) (claimEdit c),
            scanJob nulls ((claimEdit c).apply r)) := by
  unfold claimNextJob
  cases hsel : selectDue c t with
  | none => exact .inl ⟨rfl, rfl⟩
  | some r =>
      obtain ⟨hfind, hstate, -⟩ := selectDue_spec hsel
      exact .inr ⟨r, rfl, hfind, hstate, rfl⟩

/-- The row that a claim takes, as the table has it afterwards. -/
theorem find?_claimEdit {t : Jobs} {r : Row} (hfind : t.find? r.id = some r) (c : ClaimCall) :
    (t.update (fun x => x.id = r.id) (claimEdit c)).find? r.id =
      some ((claimEdit c).apply r) := by
  rw [find?_update, hfind, Option.map_some, editWhere_of_true _ (by simp)]

/-! ### `RenewLease`, `RequeueExpiredRunning`, `ReleaseClaim` -/

/-- The `WHERE` clause of `RenewLease` and of `ReleaseClaim`. -/
def holdsClaim (job : Job) (r : Row) : Bool :=
  r.id = job.id ∧ r.state = .running ∧ r.leaseToken = some job.leaseToken

theorem holdsClaim_id {job : Job} {r : Row} (h : holdsClaim job r = true) : r.id = job.id := by
  simp only [holdsClaim, decide_eq_true_eq] at h
  exact h.1

/-- The `SET` clause of `RenewLease`. -/
def renewEdit (now : Time) (dbNow : Timestamp) (lease : Duration) : RowEdit where
  apply r := { r with leaseExpiresAt := some (toTimestamp (now + lease)), updatedAt := dbNow }
  key_apply _ := rfl
  uniq_apply _ := rfl

/-- `RenewLease`. -/
def renewLease (now : Time) (dbNow : Timestamp) (lease : Duration) (job : Job) (t : Jobs) :
    Jobs × Except StoreError Unit :=
  if job.leaseToken = "" then (t, .error .invalidTransition)
  else execUpdate t (holdsClaim job) (renewEdit now dbNow lease)

/-- The `SET` clause of `ReleaseClaim`. -/
def releaseEdit (dbNow : Timestamp) (reason : String) : RowEdit where
  apply r :=
    { r with
      state := .pending
      lastError := some reason
      startedAt := none
      leaseExpiresAt := none
      leaseToken := none
      updatedAt := dbNow }
  key_apply _ := rfl
  uniq_apply _ := rfl

/-- `ReleaseClaim`. -/
def releaseClaim (dbNow : Timestamp) (job : Job) (reason : String) (t : Jobs) :
    Jobs × Except StoreError Unit :=
  execUpdate t (holdsClaim job) (releaseEdit dbNow reason)

/-- The row of a claim that is released. -/
theorem find?_releaseClaim {t : Jobs} {job : Job} {r : Row} (hfind : t.find? job.id = some r)
    (hholds : holdsClaim job r = true) (dbNow : Timestamp) (reason : String) :
    (releaseClaim dbNow job reason t).1.find? job.id =
      some ((releaseEdit dbNow reason).apply r) := by
  rw [releaseClaim, find?_execUpdate, hfind, Option.map_some, editWhere_of_true _ hholds]

/-- The `WHERE` clause of the selection of `RequeueExpiredRunning`. -/
def leaseExpired (dbNow : Timestamp) (locked : List String) (r : Row) : Bool :=
  r.state = .running ∧ (∃ ts ∈ r.leaseExpiresAt, ts ≤ dbNow) ∧ r.id ∉ locked

/-- `ORDER BY lease_expires_at ASC`; the selected rows all have one. -/
def leaseBefore (a b : Row) : Bool :=
  a.leaseExpiresAt.getD 0 ≤ b.leaseExpiresAt.getD 0

/-- The ids `RequeueExpiredRunning` selects. -/
def expiredIds (dbNow : Timestamp) (limit : ℤ) (locked : List String) (t : Jobs) :
    List String :=
  (((t.rows.filter (leaseExpired dbNow locked)).insertionSort (leaseBefore · ·)).take
    limit.toNat).map Row.id

/-- The condition of both `CASE` expressions of `RequeueExpiredRunning`. -/
def attemptsExhausted (r : Row) : Bool :=
  r.taskMaxRetries > 0 ∧ r.attempt ≥ r.taskMaxRetries

/-- The `SET` clause of `RequeueExpiredRunning`. -/
def requeueEdit (dbNow : Timestamp) : RowEdit where
  apply r :=
    { r with
      state := if attemptsExhausted r then .dead else .pending
      lastError := some "job lease expired before completion"
      scheduledAt := if attemptsExhausted r then r.scheduledAt else some dbNow
      startedAt := none
      leaseExpiresAt := none
      leaseToken := none
      updatedAt := dbNow }
  key_apply _ := rfl
  uniq_apply _ := rfl

/-- `RequeueExpiredRunning`, with the number of rows it requeued. -/
def requeueExpiredRunning (dbNow : Timestamp) (limit : ℤ) (locked : List String) (t : Jobs) :
    Jobs × ℕ :=
  if limit ≤ 0 then (t, 0)
  else
    let ids := expiredIds dbNow limit locked t
    (t.update (fun r => r.id ∈ ids) (requeueEdit dbNow), t.affected fun r => r.id ∈ ids)

/-- Every row whose id is selected for requeueing is `RUNNING` with an expired lease. -/
theorem leaseExpired_of_mem_expiredIds {dbNow : Timestamp} {limit : ℤ} {locked : List String}
    {t : Jobs} {r : Row} (hfind : t.find? r.id = some r)
    (h : r.id ∈ expiredIds dbNow limit locked t) : leaseExpired dbNow locked r = true := by
  obtain ⟨x, hx, hid⟩ := List.mem_map.mp h
  have hmem := List.mem_of_mem_take hx
  rw [List.mem_insertionSort, List.mem_filter] at hmem
  obtain ⟨hrow, hexp⟩ := hmem
  have hx' : t.find? x.id = some x := find?_of_mem hrow
  rw [hid, hfind] at hx'
  rwa [Option.some.inj hx']

end Conduit
