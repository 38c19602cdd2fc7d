import Conduit.KeyedTable
import Conduit.Models

/-!
# The `jobs` Table and the Encodings of a Job

A `Row` is one row of the table of `migrations/001_create_jobs.sql`, column by column. A
nullable column is an `Option`; a `TIMESTAMPTZ` keeps whole microseconds; a `JSONB`
column holds what `json.Marshal` makes of a `map[string]string`, the null of a nil map or
an object. The text of the `state` column and the Go string it is scanned into are the
same `JobState`.

A job goes into the table through `insertRow` and comes back through the positional scan
`scanJob`. The two sides disagree on nullable text: `nullableString` stores an empty
string as SQL `NULL`, and `scanJob` reads every text column into a plain Go `string`.
What the driver does with that `NULL` is the parameter `NullText`: pgx v5 refuses the
scan, and the other reading takes it as the empty string.

## Main results

* `scanJob_eq_ok_iff`: the scan succeeds exactly when no text column it meets is `NULL`,
  or `NULL` is read as the empty string, and then returns `Row.toJob`.
* `toJob_insertRow`: reading back an inserted row gives the job with its times cut to
  microseconds.
-/

namespace Conduit

/-- A `TIMESTAMPTZ` value, in microseconds since the Unix epoch. -/
abbrev Timestamp := ℤ

/-- The stored form of an instant: whole microseconds, rounded down. -/
def toTimestamp (t : Time) : Timestamp := t / 1000

/-- The instant a stored timestamp is read as. -/
def ofTimestamp (ts : Timestamp) : Time := ts * 1000

/-- An instant cut to microseconds. -/
def cutToMicros (t : Time) : Time := t / 1000 * 1000

@[simp] theorem ofTimestamp_toTimestamp (t : Time) :
    ofTimestamp (toTimestamp t) = cutToMicros t := rfl

/-- A `JSONB` value, as far as the store writes any. -/
inductive Jsonb
  | null
  | object (m : StringMap)
  deriving DecidableEq

/-- `json.Marshal` of a `map[string]string`, stored as `JSONB`. -/
def marshalMap : Option StringMap → Jsonb
  | none => .null
  | some m => .object m

/-- `json.Unmarshal` of a metadata column into a nil map: an absent value is skipped by
the length test, a JSON null leaves the map nil. -/
def unmarshalMap : Option Jsonb → Option StringMap
  | some (.object m) => some m
  | _ => none

@[simp] theorem unmarshalMap_marshalMap (m : Option StringMap) :
    unmarshalMap (some (marshalMap m)) = m := by
  cases m <;> rfl

/-- A row of the `jobs` table. -/
structure Row where
  id : String
  idempotencyKey : Option String
  taskId : String
  taskName : String
  taskPayload : Option (List UInt8)
  taskRetryCount : ℤ
  taskMaxRetries : ℤ
  taskTimeoutNs : ℤ
  taskCronExpr : Option String
  taskQueue : String
  taskMetadata : Option Jsonb
  state : JobState
  attempt : ℤ
  lastError : Option String
  scheduledAt : Option Timestamp
  startedAt : Option Timestamp
  leaseExpiresAt : Option Timestamp
  leaseToken : Option String
  completedAt : Option Timestamp
  createdAt : Timestamp
  updatedAt : Timestamp
  metadata : Option Jsonb
  deriving DecidableEq

/-- The `jobs` table: `id` is the primary key and `jobs_idempotency_key_idx` the partial
unique index. -/
abbrev Jobs := KeyedTable Row.id Row.idempotencyKey

/-- A row transformation that keeps both indexed columns. -/
abbrev RowEdit := KeyedTable.Edit Row.id Row.idempotencyKey

/-! ### Errors -/

/-- The errors the store returns. `nullScan` names the column whose `NULL` the driver
refused; `statement` is a statement the server refused or never ran. -/
inductive StoreError
  | jobNotFound
  | invalidTransition
  | duplicateIdempotencyKey
  | primaryKey
  | nullScan (column : String)
  | statement
  | leaseToken
  deriving DecidableEq

/-! ### Writing a job -/

/-- `nullableString`: the empty string is stored as `NULL`. -/
def nullableString (value : String) : Option String :=
  if value = "" then none else some value

@[simp] theorem nullableString_empty : nullableString "" = none := rfl

theorem nullableString_of_ne {value : String} (h : value ≠ "") :
    nullableString value = some value := if_neg h

/-- The row `CreateJob` inserts, with the clock read at `now`. -/
def insertRow (now : Time) (job : Job) : Row where
  id := job.id
  idempotencyKey := nullableString job.idempotencyKey
  taskId := job.task.id
  taskName := job.task.name
  taskPayload := job.task.payload
  taskRetryCount := job.task.retryCount
  taskMaxRetries := job.task.maxRetries
  taskTimeoutNs := job.task.timeout
  taskCronExpr := some job.task.cronExpression
  taskQueue := job.task.queue
  taskMetadata := some (marshalMap job.task.metadata)
  state := job.state
  attempt := job.attempt
  lastError := some job.lastError
  scheduledAt := job.scheduledAt.map toTimestamp
  startedAt := job.startedAt.map toTimestamp
  leaseExpiresAt := job.leaseExpiresAt.map toTimestamp
  leaseToken := nullableString job.leaseToken
  completedAt := job.completedAt.map toTimestamp
  createdAt := toTimestamp (if job.createdAt = zeroTime then now else job.createdAt)
  updatedAt := toTimestamp now
  metadata := some (marshalMap job.metadata)

/-! ### Reading a row -/

/-- What the driver does with a SQL `NULL` scanned into a Go `string`. -/
inductive NullText
  /-- The scan fails: pgx v5. -/
  | reject
  /-- The string becomes empty. -/
  | empty
  deriving DecidableEq

/-- Scan a nullable text column into a Go `string`. -/
def scanText (nulls : NullText) (column : String) : Option String → Except StoreError String
  | some s => .ok s
  | none =>
    match nulls with
    | .reject => .error (.nullScan column)
    | .empty => .ok ""

/-- The job a row stands for, `NULL` text read as the empty string. -/
def Row.toJob (r : Row) : Job where
  id := r.id
  idempotencyKey := r.idempotencyKey.getD ""
  task :=
    { id := r.taskId
      name := r.taskName
      payload := r.taskPayload
      retryCount := r.taskRetryCount
      maxRetries := r.taskMaxRetries
      timeout := r.taskTimeoutNs
      cronExpression := r.taskCronExpr.getD ""
      queue := r.taskQueue
      metadata := unmarshalMap r.taskMetadata }
  state := r.state
  attempt := r.attempt
  scheduledAt := r.scheduledAt.map ofTimestamp
  startedAt := r.startedAt.map ofTimestamp
  leaseExpiresAt := r.leaseExpiresAt.map ofTimestamp
  leaseToken := r.leaseToken.getD ""
  completedAt := r.completedAt.map ofTimestamp
  lastError := r.lastError.getD ""
  metadata := unmarshalMap r.metadata
  createdAt := ofTimestamp r.createdAt
  updatedAt := ofTimestamp r.updatedAt

/-- `scanJob`: the columns are scanned in the order of the `SELECT`, so the first `NULL`
met in a text column decides the error. -/
def scanJob (nulls : NullText) (r : Row) : Except StoreError Job := do
  let idempotencyKey ← scanText nulls "idempotency_key" r.idempotencyKey
  let cronExpression ← scanText nulls "task_cron_expr" r.taskCronExpr
  let lastError ← scanText nulls "last_error" r.lastError
  let leaseToken ← scanText nulls "lease_token" r.leaseToken
  return { r.toJob with
    idempotencyKey := idempotencyKey
    task := { r.toJob.task with cronExpression := cronExpression }
    lastError := lastError
    leaseToken := leaseToken }

/-- No text column the scan reads into a plain `string` is `NULL`. -/
def Row.TextsPresent (r : Row) : Prop :=
  r.idempotencyKey.isSome ∧ r.taskCronExpr.isSome ∧ r.lastError.isSome ∧ r.leaseToken.isSome

instance (r : Row) : Decidable r.TextsPresent :=
  inferInstanceAs (Decidable (_ ∧ _ ∧ _ ∧ _))

/-- Scanning one text column succeeds exactly when the column is present or `NULL` is
read as the empty string. -/
theorem scanText_eq_ok_iff {nulls : NullText} {column : String} {value : Option String}
    {s : String} :
    scanText nulls column value = .ok s ↔
      s = value.getD "" ∧ (nulls = .empty ∨ value.isSome) := by
  cases value <;> cases nulls <;> simp [scanText, eq_comm]

/-- **The scan.** It returns the row's job, and succeeds exactly when `NULL` is read as
the empty string or no text column is `NULL`. -/
theorem scanJob_eq_ok_iff {nulls : NullText} {r : Row} {job : Job} :
    scanJob nulls r = .ok job ↔ job = r.toJob ∧ (nulls = .empty ∨ r.TextsPresent) := by
  simp only [scanJob, except_bind_eq_ok, scanText_eq_ok_iff, Row.TextsPresent]
  constructor
  · rintro ⟨_, ⟨rfl, h₁⟩, _, ⟨rfl, h₂⟩, _, ⟨rfl, h₃⟩, _, ⟨rfl, h₄⟩, hjob⟩
    refine ⟨(Except.ok.inj hjob).symm, ?_⟩
    tauto
  · rintro ⟨rfl, h⟩
    exact ⟨_, ⟨rfl, by tauto⟩, _, ⟨rfl, by tauto⟩, _, ⟨rfl, by tauto⟩, _, ⟨rfl, by tauto⟩,
      rfl⟩

/-- Reading `NULL` as the empty string, every row scans. -/
@[simp] theorem scanJob_empty (r : Row) : scanJob .empty r = .ok r.toJob :=
  scanJob_eq_ok_iff.mpr ⟨rfl, .inl rfl⟩

/-! ### The round trip -/

/-- The job as the table keeps it: `CreatedAt` and `UpdatedAt` filled in, every time cut
to microseconds. -/
def storedJob (now : Time) (job : Job) : Job :=
  { job with
    scheduledAt := job.scheduledAt.map cutToMicros
    startedAt := job.startedAt.map cutToMicros
    leaseExpiresAt := job.leaseExpiresAt.map cutToMicros
    completedAt := job.completedAt.map cutToMicros
    createdAt := cutToMicros (if job.createdAt = zeroTime then now else job.createdAt)
    updatedAt := cutToMicros now }

theorem getD_nullableString (value : String) : (nullableString value).getD "" = value := by
  unfold nullableString
  split
  · rename_i h
    rw [h]
    rfl
  · rfl

theorem isSome_nullableString (value : String) :
    (nullableString value).isSome = true ↔ value ≠ "" := by
  unfold nullableString
  split <;> simp [*]

/-- The row of a job, read with `NULL` text as the empty string, is the stored job. -/
theorem toJob_insertRow (now : Time) (job : Job) :
    (insertRow now job).toJob = storedJob now job := by
  have hmap : ∀ t : Option Time,
      (t.map toTimestamp).map ofTimestamp = t.map cutToMicros := by
    intro t
    cases t <;> rfl
  simp only [Row.toJob, insertRow, storedJob, getD_nullableString, unmarshalMap_marshalMap,
    Option.getD_some, hmap, ofTimestamp_toTimestamp]

/-- The text columns of a freshly inserted row are all present exactly when neither the
idempotency key nor the lease token is empty. -/
theorem textsPresent_insertRow (now : Time) (job : Job) :
    (insertRow now job).TextsPresent ↔ job.idempotencyKey ≠ "" ∧ job.leaseToken ≠ "" := by
  simp only [Row.TextsPresent, insertRow, isSome_nullableString, Option.isSome_some,
    true_and]

end Conduit
