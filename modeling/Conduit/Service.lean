import Conduit.Store

/-!
# Enqueue and Cancel Calls

The calls an API client makes: `JobService.Enqueue` behind `POST /api/jobs` and
`JobService.Cancel` behind `POST /api/jobs/:id/cancel`. Each is a small state machine
whose steps are its store calls, so that any number of clients can be interleaved.

`Enqueue` looks up the idempotency key if there is one, inserts the job, looks the key up
again when the insert reports a duplicate, and hands a due job to a goroutine that
publishes it. `CancelJob` reads and tests the row, then writes it.

## Main results

* `prepareJob_requestJob`: what an API request puts into the table is a `PENDING` job with
  no lease, whatever the request says.
* `enqueueStep_sound`: the steps of an enqueue call, one by one.
* `enqueueStep_db`: an enqueue call changes the table only by inserting such a job.
-/

namespace Conduit

/-! ### `Enqueue` -/

/-- The body of `POST /api/jobs`. -/
structure EnqueueRequest where
  idempotencyKey : String
  task : Task
  scheduledAt : Option Time
  metadata : Option StringMap

/-- The job `Handler.EnqueueJob` builds from a request: the lifecycle fields are left at
their zero values. -/
def requestJob (req : EnqueueRequest) : Job where
  id := ""
  idempotencyKey := req.idempotencyKey
  task := req.task
  state := .unset
  attempt := 0
  scheduledAt := req.scheduledAt
  startedAt := none
  leaseExpiresAt := none
  leaseToken := ""
  completedAt := none
  lastError := ""
  metadata := req.metadata
  createdAt := zeroTime
  updatedAt := zeroTime

/-- The defaults `Enqueue` fills in before it calls `CreateJob`. -/
def prepareJob (rand : RandomBytes) (now : Time) (job : Job) : Job :=
  { job with
    id := if job.id = "" then newJobID rand else job.id
    state := if job.state = .unset then .pending else job.state
    scheduledAt := some (job.scheduledAt.getD now) }

/-- `shouldPublishImmediately`. -/
def shouldPublishImmediately (job : Job) (now : Time) : Bool :=
  ∀ t ∈ job.scheduledAt, t ≤ now

/-- A job that went through its JSON form, as a Kafka consumer decodes it: fields tagged
`omitempty` come back nil when they were empty. -/
def viaJson (job : Job) : Job :=
  { job with
    task :=
      { job.task with
        payload := job.task.payload.filter (· ≠ [])
        metadata := job.task.metadata.filter (·.entries ≠ []) }
    metadata := job.metadata.filter (·.entries ≠ []) }

/-- A call of `Enqueue`. A returned call may still have a job to publish. -/
inductive EnqueueCall
  | idle
  | lookup (job : Job)
  | insert (job : Job)
  | relookup (job : Job)
  | returned (result : Except StoreError String) (toPublish : Option Job)

/-- A step of an `Enqueue` call. -/
inductive EnqueueAct
  | start (req : EnqueueRequest)
  | lookup
  | insert (rand : RandomBytes) (now createNow : Time)
  | relookup
  | publish
  /-- The pending store call, or the pending publish, fails without effect. -/
  | fail

/-- One step of an `Enqueue` call, on the table, the published records and the call. -/
def enqueueStep (nulls : NullText) (db : Jobs) (kafka : List Job) (call : EnqueueCall)
    (act : EnqueueAct) : Option (Jobs × List Job × EnqueueCall) :=
  match act, call with
  | .start req, .idle =>
    -- `Handler.EnqueueJob` rejects a request without a task name.
    if req.task.name = "" then none
    else if req.idempotencyKey = "" then some (db, kafka, .insert (requestJob req))
    else some (db, kafka, .lookup (requestJob req))
  | .lookup, .lookup job =>
    match getJobByIdempotencyKey nulls job.idempotencyKey db with
    | .ok existing => some (db, kafka, .returned (.ok existing.id) none)
    | .error .jobNotFound => some (db, kafka, .insert job)
    | .error e => some (db, kafka, .returned (.error e) none)
  | .insert rand now createNow, .insert job =>
    let job := prepareJob rand now job
    match createJob createNow job db with
    | .ok db' =>
      let toPublish := if shouldPublishImmediately job now then some job else none
      some (db', kafka, .returned (.ok job.id) toPublish)
    | .error .duplicateIdempotencyKey =>
      if job.idempotencyKey = "" then
        some (db, kafka, .returned (.error .duplicateIdempotencyKey) none)
      else some (db, kafka, .relookup job)
    | .error e => some (db, kafka, .returned (.error e) none)
  | .relookup, .relookup job =>
    match getJobByIdempotencyKey nulls job.idempotencyKey db with
    | .ok existing => some (db, kafka, .returned (.ok existing.id) none)
    | .error e => some (db, kafka, .returned (.error e) none)
  | .publish, .returned result (some job) =>
    some (db, kafka ++ [job], .returned result none)
  | .fail, .lookup _ => some (db, kafka, .returned (.error .statement) none)
  | .fail, .insert _ => some (db, kafka, .returned (.error .statement) none)
  | .fail, .relookup _ => some (db, kafka, .returned (.error .statement) none)
  | .fail, .returned result (some _) => some (db, kafka, .returned result none)
  | _, _ => none

/-- The steps of an `Enqueue` call, one by one. -/
inductive EnqueueStep (nulls : NullText) (db : Jobs) (kafka : List Job) :
    EnqueueCall → EnqueueAct → Jobs → List Job → EnqueueCall → Prop
  | started {req : EnqueueRequest} (hkey : req.idempotencyKey = "") :
      EnqueueStep nulls db kafka .idle (.start req) db kafka (.insert (requestJob req))
  | startedKeyed {req : EnqueueRequest} (hkey : req.idempotencyKey ≠ "") :
      EnqueueStep nulls db kafka .idle (.start req) db kafka (.lookup (requestJob req))
  | found {job existing : Job}
      (h : getJobByIdempotencyKey nulls job.idempotencyKey db = .ok existing) :
      EnqueueStep nulls db kafka (.lookup job) .lookup db kafka
        (.returned (.ok existing.id) none)
  | notFound {job : Job} :
      EnqueueStep nulls db kafka (.lookup job) .lookup db kafka (.insert job)
  | lookupFailed {job : Job} {e : StoreError} :
      EnqueueStep nulls db kafka (.lookup job) .lookup db kafka (.returned (.error e) none)
  | inserted {job : Job} {rand : RandomBytes} {now createNow : Time} {db' : Jobs}
      (h : createJob createNow (prepareJob rand now job) db = .ok db') :
      EnqueueStep nulls db kafka (.insert job) (.insert rand now createNow) db' kafka
        (.returned (.ok (prepareJob rand now job).id)
          (if shouldPublishImmediately (prepareJob rand now job) now then
            some (prepareJob rand now job) else none))
  | duplicate {job : Job} {rand : RandomBytes} {now createNow : Time}
      (h : createJob createNow (prepareJob rand now job) db =
        .error .duplicateIdempotencyKey) :
      EnqueueStep nulls db kafka (.insert job) (.insert rand now createNow) db kafka
        (.relookup (prepareJob rand now job))
  | insertFailed {job : Job} {rand : RandomBytes} {now createNow : Time} {e : StoreError}
      (h : createJob createNow (prepareJob rand now job) db = .error e) :
      EnqueueStep nulls db kafka (.insert job) (.insert rand now createNow) db kafka
        (.returned (.error e) none)
  | refound {job existing : Job}
      (h : getJobByIdempotencyKey nulls job.idempotencyKey db = .ok existing) :
      EnqueueStep nulls db kafka (.relookup job) .relookup db kafka
        (.returned (.ok existing.id) none)
  | relookupFailed {job : Job} {e : StoreError} :
      EnqueueStep nulls db kafka (.relookup job) .relookup db kafka
        (.returned (.error e) none)
  | published {result : Except StoreError String} {job : Job} :
      EnqueueStep nulls db kafka (.returned result (some job)) .publish db (kafka ++ [job])
        (.returned result none)
  | failed {call : EnqueueCall} {job : Job}
      (h : call = .lookup job ∨ call = .insert job ∨ call = .relookup job) :
      EnqueueStep nulls db kafka call .fail db kafka (.returned (.error .statement) none)
  | publishFailed {result : Except StoreError String} {job : Job} :
      EnqueueStep nulls db kafka (.returned result (some job)) .fail db kafka
        (.returned result none)

/-- Every step of `enqueueStep` is one of the listed steps. -/
theorem enqueueStep_sound {nulls : NullText} {db db' : Jobs} {kafka kafka' : List Job}
    {call call' : EnqueueCall} {act : EnqueueAct}
    (h : enqueueStep nulls db kafka call act = some (db', kafka', call')) :
    EnqueueStep nulls db kafka call act db' kafka' call' := by
  unfold enqueueStep at h
  split at h
  case h_1 req =>
    split at h
    · cases h
    · split at h
      · rename_i hkey
        cases h
        exact .started hkey
      · rename_i hkey
        cases h
        exact .startedKeyed hkey
  case h_2 job =>
    split at h
    · rename_i existing hget
      cases h
      exact .found hget
    · cases h
      exact .notFound
    · cases h
      exact .lookupFailed
  case h_3 rand now createNow job =>
    dsimp only at h
    split at h
    · rename_i hcreate
      cases h
      exact .inserted hcreate
    · rename_i hcreate
      split at h
      · cases h
        exact .insertFailed hcreate
      · cases h
        exact .duplicate hcreate
    · rename_i hcreate
      cases h
      exact .insertFailed hcreate
  case h_4 job =>
    split at h
    · rename_i existing hget
      cases h
      exact .refound hget
    · cases h
      exact .relookupFailed
  case h_5 => cases h; exact .published
  case h_6 => cases h; exact .failed (.inl rfl)
  case h_7 => cases h; exact .failed (.inr (.inl rfl))
  case h_8 => cases h; exact .failed (.inr (.inr rfl))
  case h_9 => cases h; exact .publishFailed
  case h_10 => cases h

/-- A call that has returned stays so, and gets nothing more to publish. -/
theorem EnqueueStep.of_returned {nulls : NullText} {db db' : Jobs} {kafka kafka' : List Job}
    {call call' : EnqueueCall} {act : EnqueueAct}
    (h : EnqueueStep nulls db kafka call act db' kafka' call')
    {result : Except StoreError String} {toPublish : Option Job}
    (hcall : call = .returned result toPublish) : call' = .returned result none := by
  cases h with
  | published => cases hcall; rfl
  | publishFailed => cases hcall; rfl
  | failed hwaiting => rcases hwaiting with rfl | rfl | rfl <;> cases hcall
  | _ => cases hcall

/-- A call has something to publish after it has inserted it, due at once. -/
theorem EnqueueStep.toPublish {nulls : NullText} {db db' : Jobs} {kafka kafka' : List Job}
    {call call' : EnqueueCall} {act : EnqueueAct}
    (h : EnqueueStep nulls db kafka call act db' kafka' call')
    {result : Except StoreError String} {job : Job}
    (hcall : call' = .returned result (some job)) :
    ∃ carried rand now createNow, call = .insert carried ∧
      act = .insert rand now createNow ∧ job = prepareJob rand now carried ∧
      shouldPublishImmediately job now = true ∧ createJob createNow job db = .ok db' := by
  cases h with
  | inserted hcreate =>
      simp only [EnqueueCall.returned.injEq] at hcall
      obtain ⟨-, hjob⟩ := hcall
      split at hjob
      · rename_i hdue
        obtain rfl := Option.some.inj hjob
        exact ⟨_, _, _, _, rfl, rfl, rfl, hdue, hcreate⟩
      · cases hjob
  | _ => cases hcall

/-- A record is published by the call that has it to publish. -/
theorem EnqueueStep.mem_kafka {nulls : NullText} {db db' : Jobs} {kafka kafka' : List Job}
    {call call' : EnqueueCall} {act : EnqueueAct}
    (h : EnqueueStep nulls db kafka call act db' kafka' call') {job : Job}
    (hmem : job ∈ kafka') : job ∈ kafka ∨ ∃ result, call = .returned result (some job) := by
  cases h with
  | published =>
      rcases List.mem_append.mp hmem with hmem | hmem
      · exact .inl hmem
      · rw [List.mem_singleton] at hmem
        exact .inr ⟨_, by rw [hmem]⟩
  | _ => exact .inl hmem

/-! ### `Cancel` -/

/-- A call of `CancelJob`. -/
inductive CancelCall
  | idle
  | read (id : String)
  | write (id : String)
  | returned (id : String) (result : Except StoreError Unit)
  deriving DecidableEq

/-- A step of a `CancelJob` call. -/
inductive CancelAct
  | start (id : String)
  | read
  | write (now : Time)
  /-- The pending store call fails without effect. -/
  | fail

/-- One step of a `CancelJob` call, on the table and the call. -/
def cancelStep (nulls : NullText) (db : Jobs) (call : CancelCall) (act : CancelAct) :
    Option (Jobs × CancelCall) :=
  match act, call with
  | .start id, .idle => some (db, .read id)
  | .read, .read id =>
    match cancelJobCheck nulls id db with
    | .ok () => some (db, .write id)
    | .error e => some (db, .returned id (.error e))
  | .write now, .write id =>
    some ((cancelJobExec now id db).1, .returned id (cancelJobExec now id db).2)
  | .fail, .read id => some (db, .returned id (.error .statement))
  | .fail, .write id => some (db, .returned id (.error .statement))
  | _, _ => none

/-! ### What an API request can put into the table -/

/-- A job as `Enqueue` passes it to `CreateJob` for an API request: `PENDING`, never
attempted, without lease. -/
structure FreshJob (job : Job) : Prop where
  state : job.state = .pending
  attempt : job.attempt = 0
  leaseToken : job.leaseToken = ""
  startedAt : job.startedAt = none
  leaseExpiresAt : job.leaseExpiresAt = none

/-- The job of an API request, with the defaults of `Enqueue`, is fresh. -/
theorem prepareJob_requestJob (req : EnqueueRequest) (rand : RandomBytes) (now : Time) :
    FreshJob (prepareJob rand now (requestJob req)) where
  state := rfl
  attempt := rfl
  leaseToken := rfl
  startedAt := rfl
  leaseExpiresAt := rfl

/-- A fresh job stays fresh on its way through Kafka. -/
theorem FreshJob.viaJson {job : Job} (h : FreshJob job) : FreshJob (viaJson job) :=
  ⟨h.state, h.attempt, h.leaseToken, h.startedAt, h.leaseExpiresAt⟩

/-- The job an `Enqueue` call carries: the request's until the insert, a fresh one
afterwards. -/
def EnqueueCall.Ok : EnqueueCall → Prop
  | .lookup job => ∃ req, job = requestJob req
  | .insert job => ∃ req, job = requestJob req
  | .returned _ (some job) => FreshJob job
  | _ => True

/-- The job an `Enqueue` call is about to insert becomes fresh. -/
theorem EnqueueCall.Ok.fresh {job : Job} (h : (EnqueueCall.insert job).Ok)
    (rand : RandomBytes) (now : Time) : FreshJob (prepareJob rand now job) := by
  obtain ⟨req, rfl⟩ := h
  exact prepareJob_requestJob req rand now

/-- What one step of an `Enqueue` call does to the table: nothing, or the insertion of
the job it carries. -/
theorem enqueueStep_db {nulls : NullText} {db db' : Jobs} {kafka kafka' : List Job}
    {call call' : EnqueueCall} {act : EnqueueAct}
    (h : enqueueStep nulls db kafka call act = some (db', kafka', call')) :
    db' = db ∨ ∃ job rand now createNow, act = .insert rand now createNow ∧
      call = .insert job ∧ createJob createNow (prepareJob rand now job) db = .ok db' := by
  cases enqueueStep_sound h with
  | inserted hcreate => exact .inr ⟨_, _, _, _, rfl, rfl, hcreate⟩
  | _ => exact .inl rfl

/-- An `Enqueue` call keeps carrying a request's job and publishes only fresh jobs. -/
theorem enqueueStep_ok {nulls : NullText} {db db' : Jobs} {kafka kafka' : List Job}
    {call call' : EnqueueCall} {act : EnqueueAct} (hok : call.Ok)
    (hkafka : ∀ job ∈ kafka, FreshJob job)
    (h : enqueueStep nulls db kafka call act = some (db', kafka', call')) :
    call'.Ok ∧ ∀ job ∈ kafka', FreshJob job := by
  cases enqueueStep_sound h with
  | started => exact ⟨⟨_, rfl⟩, hkafka⟩
  | startedKeyed => exact ⟨⟨_, rfl⟩, hkafka⟩
  | notFound => exact ⟨hok, hkafka⟩
  | inserted =>
      refine ⟨?_, hkafka⟩
      split
      · exact hok.fresh _ _
      · trivial
  | published =>
      refine ⟨trivial, ?_⟩
      intro job hmem
      rcases List.mem_append.mp hmem with hmem | hmem
      · exact hkafka job hmem
      · rw [List.mem_singleton] at hmem
        exact hmem ▸ hok
  | _ => exact ⟨trivial, hkafka⟩

end Conduit
