import Conduit.System

/-!
# Idempotent Enqueue

`Enqueue` looks the idempotency key up, inserts, and looks it up again when the insert hits
the unique index. Other calls run between these steps, so two calls with one key can both
find nothing and both try to insert. The index lets one of them through; the row it makes is
never deleted and keeps its key, so whatever the other calls do, the row they find is that
one.

A run is described by what it inserts and what it publishes. The rows of the table are those
that were inserted, and the records in Kafka are those that were published, in this order. Every
record that reaches Kafka, or waits to be published, belongs to an insertion of the run.

## Main results

* `insertionsOk_of_exec`: the ids and the keys of all insertions of a run are distinct, and
  every row and every published record stems from one of them.
* `kafka_of_exec`: the records in Kafka are what the calls of the run have published.
* `served_of_exec`: a call that returns an id has found or made the row with its key.
* `enqueue_idempotent`: calls with one key make one row, return its id, and publish it at most
  once, through the call that made it.
-/

namespace Conduit

open KeyedTable Transition

/-- A successful insert by an `Enqueue` call: its slot, the clock reading of the call and the
job. -/
structure Insertion where
  slot : ℕ
  now : Time
  job : Job

/-- The insertion an action makes. -/
def insertions (s : Sys) : Action → List Insertion
  | .enqueue c (.insert rand now createNow) =>
    match s.enqueues c with
    | .insert job =>
      match createJob createNow (prepareJob rand now job) s.db with
      | .ok _ => [⟨c, now, prepareJob rand now job⟩]
      | .error _ => []
    | _ => []
  | _ => []

/-- The insertions of a run. -/
def inserted (cfg : Config) (as : List Action) : List Insertion :=
  logSteps (step cfg) insertions Sys.init as

/-- The job an action publishes, with the slot of the call. -/
def publications (s : Sys) : Action → List (ℕ × Job)
  | .enqueue c .publish =>
    match s.enqueues c with
    | .returned _ (some job) => [(c, job)]
    | _ => []
  | _ => []

/-- What a run publishes. -/
def published (cfg : Config) (as : List Action) : List (ℕ × Job) :=
  logSteps (step cfg) publications Sys.init as

/-! ### Rows keep their keys -/

/-- No operation changes the idempotency key of a row. -/
theorem RowChange.idempotencyKey {s : Sys} {a : Action} {r r' : Row} (h : RowChange s r a r') :
    r'.idempotencyKey = r.idempotencyKey := by
  cases h <;> rfl

/-- The row of id `id` has the key. -/
def KeyedBy (db : Jobs) (id : String) (key : Option String) : Prop :=
  ∃ r, db.find? id = some r ∧ r.idempotencyKey = key

/-- A row stays in the table with its key. -/
theorem KeyedBy.step {cfg : Config} {s s' : Sys} {a : Action} {id : String}
    {key : Option String} (hrow : KeyedBy s.db id key) (h : step cfg s a = some s') :
    KeyedBy s'.db id key := by
  obtain ⟨r, hfind, hkey⟩ := hrow
  obtain ⟨r', hfind', hchange⟩ := step_rowChange h hfind
  exact ⟨r', hfind', hchange.idempotencyKey.trans hkey⟩

/-- A lookup by key that succeeds returns the id of the row with the key. -/
theorem keyedBy_of_lookup {nulls : NullText} {key : String} {db : Jobs} {existing : Job}
    (h : getJobByIdempotencyKey nulls key db = .ok existing) :
    KeyedBy db existing.id (some key) := by
  unfold getJobByIdempotencyKey at h
  split at h
  · cases h
  · rename_i r hfind
    obtain ⟨rfl, -⟩ := scanJob_eq_ok_iff.mp h
    obtain ⟨hmem, hkey⟩ := findUniq?_eq_some_iff.mp hfind
    exact ⟨r, find?_of_mem hmem, hkey⟩

/-- A created job has its row, with its key. -/
theorem keyedBy_of_createJob {now : Time} {job : Job} {db db' : Jobs}
    (h : createJob now job db = .ok db') :
    KeyedBy db' job.id (nullableString job.idempotencyKey) := by
  refine ⟨insertRow now job, ?_, rfl⟩
  rw [find?_createJob h, if_pos rfl]

/-- A created job has a key that was free. -/
theorem key_free_of_createJob {now : Time} {job : Job} {db db' : Jobs} {key : String}
    (h : createJob now job db = .ok db') (hkey : nullableString job.idempotencyKey = some key)
    (id : String) : ¬ KeyedBy db id (some key) := by
  rintro ⟨r, hfind, hr⟩
  unfold createJob at h
  split at h
  · rename_i hins
    exact uniq_of_insert? hins hkey r (mem_of_find? hfind) hr
  · cases h
  · cases h

/-! ### Insertions -/

/-- The insertions `log` of a run, and what has become of them. -/
structure InsertionsOk (log : List Insertion) (s : Sys) : Prop where
  /-- Every inserted job has its row, with its key. -/
  rows : ∀ x ∈ log, KeyedBy s.db x.job.id (nullableString x.job.idempotencyKey)
  /-- Every row is that of an inserted job. -/
  origin : ∀ id r, s.db.find? id = some r → ∃ x ∈ log, x.job.id = id
  /-- No id is inserted twice. -/
  ids : (log.map fun x => x.job.id).Nodup
  /-- No key is inserted twice. -/
  keys : (log.filterMap fun x => nullableString x.job.idempotencyKey).Nodup
  /-- The call of an insertion has returned. -/
  slots : ∀ x ∈ log, ∃ result toPublish, s.enqueues x.slot = .returned result toPublish
  /-- What a call has to publish is what it has inserted, and was due then. -/
  toPublish : ∀ c result job, s.enqueues c = .returned result (some job) →
    ∃ now, ⟨c, now, job⟩ ∈ log ∧ shouldPublishImmediately job now = true
  /-- So is every record. -/
  kafka : ∀ job ∈ s.kafka, ∃ c now, ⟨c, now, job⟩ ∈ log ∧
    shouldPublishImmediately job now = true

section Step

variable {cfg : Config} {s s' : Sys} {a : Action} {log : List Insertion}

/-- The insertion of an action. -/
theorem insertions_spec {x : Insertion} (hx : x ∈ insertions s a) :
    ∃ rand createNow job db, a = .enqueue x.slot (.insert rand x.now createNow) ∧
      s.enqueues x.slot = .insert job ∧ x.job = prepareJob rand x.now job ∧
      createJob createNow x.job s.db = .ok db := by
  unfold insertions at hx
  split at hx
  · rename_i c rand now createNow
    split at hx
    · rename_i job hcall
      split at hx
      · rename_i db hcreate
        rw [List.mem_singleton] at hx
        subst hx
        exact ⟨rand, createNow, job, db, rfl, hcall, rfl, hcreate⟩
      · cases hx
    · cases hx
  · cases hx

/-- An action makes at most one insertion. -/
theorem insertions_cases (s : Sys) (a : Action) :
    insertions s a = [] ∨ ∃ x, insertions s a = [x] := by
  unfold insertions
  split
  · split
    · split
      · exact .inr ⟨_, rfl⟩
      · exact .inl rfl
    · exact .inl rfl
  · exact .inl rfl

/-- A step of an `Enqueue` call, seen from the system. -/
theorem step_enqueue {c : ℕ} {act : EnqueueAct}
    (h : step cfg s (.enqueue c act) = some s') :
    EnqueueStep cfg.nulls s.db s.kafka (s.enqueues c) act s'.db s'.kafka (s'.enqueues c) ∧
      ∀ c', c' ≠ c → s'.enqueues c' = s.enqueues c' := by
  cases step_sound h with
  | enqueue hstep =>
      refine ⟨?_, fun c' hc' => Function.update_of_ne hc' _ _⟩
      dsimp only
      rw [Function.update_self]
      exact enqueueStep_sound hstep

/-- Steps of the other parties leave the calls and the records alone. -/
theorem step_not_enqueue (h : step cfg s a = some s') (ha : ∀ c act, a ≠ .enqueue c act) :
    s'.enqueues = s.enqueues ∧ s'.kafka = s.kafka := by
  cases step_sound h with
  | enqueue => exact absurd rfl (ha _ _)
  | _ => exact ⟨rfl, rfl⟩

/-- What an insertion does to the table and to its call. -/
theorem step_insertion (h : step cfg s a = some s') {x : Insertion}
    (hx : x ∈ insertions s a) :
    ∃ createNow, createJob createNow x.job s.db = .ok s'.db ∧
      ∃ result toPublish, s'.enqueues x.slot = .returned result toPublish := by
  obtain ⟨rand, createNow, job, db, rfl, hcall, hjob, hcreate⟩ := insertions_spec hx
  rw [hjob] at hcreate
  simp only [step, hcall, enqueueStep, hcreate] at h
  obtain rfl := Option.some.inj h
  rw [hjob]
  exact ⟨createNow, hcreate, _, _, Function.update_self _ _ _⟩

theorem step_insertions_rows (hok : InsertionsOk log s) (h : step cfg s a = some s')
    {x : Insertion} (hx : x ∈ log ++ insertions s a) :
    KeyedBy s'.db x.job.id (nullableString x.job.idempotencyKey) := by
  rcases List.mem_append.mp hx with hold | hnew
  · exact (hok.rows x hold).step h
  · obtain ⟨createNow, hcreate, -⟩ := step_insertion h hnew
    exact keyedBy_of_createJob hcreate

theorem step_insertions_origin (hok : InsertionsOk log s) (h : step cfg s a = some s')
    {id : String} {r : Row} (hfind : s'.db.find? id = some r) :
    ∃ x ∈ log ++ insertions s a, x.job.id = id := by
  rcases (step_sound h).find? id with
    heq | ⟨-, c, job, rand, now, createNow, rfl, hcall, hcreate, heq⟩
  · rw [hfind] at heq
    obtain ⟨r₀, hold, -⟩ := Option.map_eq_some_iff.mp heq.symm
    obtain ⟨x, hx, hid⟩ := hok.origin id r₀ hold
    exact ⟨x, List.mem_append_left _ hx, hid⟩
  · have hid : (insertRow createNow (prepareJob rand now job)).id = id := key_of_find? heq
    refine ⟨⟨c, now, prepareJob rand now job⟩, List.mem_append_right _ ?_, hid⟩
    simp [insertions, hcall, hcreate]

theorem step_insertions_ids (hok : InsertionsOk log s) (h : step cfg s a = some s') :
    ((log ++ insertions s a).map fun x => x.job.id).Nodup := by
  rcases insertions_cases s a with hnil | ⟨x, hx⟩
  · rw [hnil, List.append_nil]
    exact hok.ids
  · obtain ⟨createNow, hcreate, -⟩ := step_insertion h (hx ▸ List.mem_singleton.mpr rfl)
    rw [hx, List.map_append, List.map_singleton]
    refine hok.ids.append (List.nodup_singleton _) ?_
    intro id hold hnew
    rw [List.mem_singleton] at hnew
    obtain ⟨y, hy, rfl⟩ := List.mem_map.mp hold
    obtain ⟨r, hfind, -⟩ := hok.rows y hy
    rw [hnew, find?_of_createJob hcreate] at hfind
    cases hfind

theorem step_insertions_keys (hok : InsertionsOk log s) (h : step cfg s a = some s') :
    ((log ++ insertions s a).filterMap fun x => nullableString x.job.idempotencyKey).Nodup := by
  rcases insertions_cases s a with hnil | ⟨x, hx⟩
  · rw [hnil, List.append_nil]
    exact hok.keys
  · obtain ⟨createNow, hcreate, -⟩ := step_insertion h (hx ▸ List.mem_singleton.mpr rfl)
    rw [hx, List.filterMap_append]
    cases hkey : nullableString x.job.idempotencyKey with
    | none =>
        simp only [List.filterMap_cons, hkey, List.filterMap_nil, List.append_nil]
        exact hok.keys
    | some key =>
        simp only [List.filterMap_cons, hkey, List.filterMap_nil]
        refine hok.keys.append (List.nodup_singleton _) ?_
        intro key' hold hnew
        rw [List.mem_singleton] at hnew
        subst hnew
        obtain ⟨y, hy, hykey⟩ := List.mem_filterMap.mp hold
        have hrow := hok.rows y hy
        rw [hykey] at hrow
        exact key_free_of_createJob hcreate hkey _ hrow

/-- A call in progress after a step: untouched, or moved on by a step of its own. -/
theorem enqueues_of_step (h : step cfg s a = some s') (c : ℕ) :
    s'.enqueues c = s.enqueues c ∨ ∃ act, a = .enqueue c act ∧
      EnqueueStep cfg.nulls s.db s.kafka (s.enqueues c) act s'.db s'.kafka (s'.enqueues c) := by
  cases a with
  | enqueue c' act =>
      obtain ⟨hstep, hother⟩ := step_enqueue h
      by_cases hc : c = c'
      · subst hc
        exact .inr ⟨act, rfl, hstep⟩
      · exact .inl (hother c hc)
  | _ => exact .inl (by rw [(step_not_enqueue h (by simp)).1])

theorem step_insertions_slots (hok : InsertionsOk log s) (h : step cfg s a = some s')
    {x : Insertion} (hx : x ∈ log ++ insertions s a) :
    ∃ result toPublish, s'.enqueues x.slot = .returned result toPublish := by
  rcases List.mem_append.mp hx with hold | hnew
  · obtain ⟨result, toPublish, hcall⟩ := hok.slots x hold
    rcases enqueues_of_step h x.slot with heq | ⟨act, -, hstep⟩
    · exact ⟨result, toPublish, by rw [heq, hcall]⟩
    · exact ⟨result, none, hstep.of_returned hcall⟩
  · obtain ⟨createNow, -, hcall⟩ := step_insertion h hnew
    exact hcall

theorem step_insertions_toPublish (hok : InsertionsOk log s) (h : step cfg s a = some s')
    {c : ℕ} {result : Except StoreError String} {job : Job}
    (hcall : s'.enqueues c = .returned result (some job)) :
    ∃ now, ⟨c, now, job⟩ ∈ log ++ insertions s a ∧
      shouldPublishImmediately job now = true := by
  rcases enqueues_of_step h c with heq | ⟨act, rfl, hstep⟩
  · rw [heq] at hcall
    obtain ⟨now, hmem, hdue⟩ := hok.toPublish c result job hcall
    exact ⟨now, List.mem_append_left _ hmem, hdue⟩
  · obtain ⟨carried, rand, now, createNow, hold, rfl, rfl, hdue, hcreate⟩ :=
      hstep.toPublish hcall
    refine ⟨now, List.mem_append_right _ ?_, hdue⟩
    simp [insertions, hold, hcreate]

theorem step_insertions_kafka (hok : InsertionsOk log s) (h : step cfg s a = some s')
    {job : Job} (hmem : job ∈ s'.kafka) :
    ∃ c now, ⟨c, now, job⟩ ∈ log ++ insertions s a ∧
      shouldPublishImmediately job now = true := by
  have hold : job ∈ s.kafka ∨ ∃ c result, s.enqueues c = .returned result (some job) := by
    cases a with
    | enqueue c act =>
        rcases (step_enqueue h).1.mem_kafka hmem with hold | ⟨result, hcall⟩
        · exact .inl hold
        · exact .inr ⟨c, result, hcall⟩
    | _ => exact .inl (by rw [← (step_not_enqueue h (by simp)).2]; exact hmem)
  rcases hold with hold | ⟨c, result, hcall⟩
  · obtain ⟨c, now, hx, hdue⟩ := hok.kafka job hold
    exact ⟨c, now, List.mem_append_left _ hx, hdue⟩
  · obtain ⟨now, hx, hdue⟩ := hok.toPublish c result job hcall
    exact ⟨c, now, List.mem_append_left _ hx, hdue⟩

end Step

/-- **Insertions.** In every run the inserted ids and keys are distinct, and what is in the table
or published was inserted. -/
theorem insertionsOk_of_exec {cfg : Config} {as : List Action} {s : Sys}
    (h : exec (step cfg) Sys.init as = some s) : InsertionsOk (inserted cfg as) s := by
  refine exec_history (H := fun as s => InsertionsOk (inserted cfg as) s) ?_ ?_ h
  · exact ⟨by simp [inserted, logSteps], by simp [Sys.init], List.nodup_nil, List.nodup_nil,
      by simp [inserted, logSteps], by simp [Sys.init], by simp [Sys.init]⟩
  · intro as u a v hu hok hstep
    rw [inserted, logSteps_concat hu hstep]
    exact ⟨fun _ => step_insertions_rows hok hstep, fun _ _ => step_insertions_origin hok hstep,
      step_insertions_ids hok hstep, step_insertions_keys hok hstep,
      fun _ => step_insertions_slots hok hstep,
      fun _ _ _ => step_insertions_toPublish hok hstep,
      fun _ => step_insertions_kafka hok hstep⟩

/-- No two insertions of a run have one id. -/
theorem InsertionsOk.eq_of_id {log : List Insertion} {s : Sys} (hok : InsertionsOk log s)
    {x y : Insertion} (hx : x ∈ log) (hy : y ∈ log) (heq : x.job.id = y.job.id) : x = y := by
  have hfx := list_find?_of_mem hok.ids hx
  have hfy := list_find?_of_mem hok.ids hy
  rw [heq, hfy] at hfx
  exact (Option.some.inj hfx).symm

/-- No two insertions of a run have one key. -/
theorem InsertionsOk.eq_of_key {log : List Insertion} {s : Sys} (hok : InsertionsOk log s)
    {x y : Insertion} {key : String} (hkey : key ≠ "") (hx : x ∈ log) (hy : y ∈ log)
    (hxkey : x.job.idempotencyKey = key) (hykey : y.job.idempotencyKey = key) : x = y := by
  have hfx := list_findUniq?_of_mem hok.keys hx (by rw [hxkey, nullableString_of_ne hkey])
  have hfy := list_findUniq?_of_mem hok.keys hy (by rw [hykey, nullableString_of_ne hkey])
  rw [hfy] at hfx
  exact (Option.some.inj hfx).symm

/-! ### What a call returns -/

/-- Where a call for a request stands: it carries the request's job, or has returned the id of
the row with the request's key. -/
def EnqueueCall.Serves (db : Jobs) (req : EnqueueRequest) : EnqueueCall → Prop
  | .idle => False
  | .lookup job => job = requestJob req
  | .insert job => job = requestJob req
  | .relookup job => job.idempotencyKey = req.idempotencyKey
  | .returned (.ok id) _ => req.idempotencyKey ≠ "" → KeyedBy db id (some req.idempotencyKey)
  | .returned (.error _) _ => True

/-- A call that stands still keeps serving its request. -/
theorem EnqueueCall.Serves.step {cfg : Config} {s s' : Sys} {a : Action}
    {req : EnqueueRequest} {call : EnqueueCall} (hserves : call.Serves s.db req)
    (h : Conduit.step cfg s a = some s') : call.Serves s'.db req := by
  unfold EnqueueCall.Serves at hserves ⊢
  split at hserves
  · exact hserves
  · exact hserves
  · exact hserves
  · exact hserves
  · exact fun hkey => (hserves hkey).step h
  · trivial

/-- A call that moves on keeps serving its request. -/
theorem EnqueueStep.serves {nulls : NullText} {db db' : Jobs} {kafka kafka' : List Job}
    {call call' : EnqueueCall} {act : EnqueueAct} {req : EnqueueRequest}
    (h : EnqueueStep nulls db kafka call act db' kafka' call') (hserves : call.Serves db req) :
    call'.Serves db' req := by
  cases h with
  | started => exact hserves.elim
  | startedKeyed => exact hserves.elim
  | found hget =>
      obtain rfl : _ = requestJob req := hserves
      exact fun _ => keyedBy_of_lookup hget
  | notFound => exact hserves
  | inserted hcreate =>
      obtain rfl : _ = requestJob req := hserves
      intro hkey
      have hrow := keyedBy_of_createJob hcreate
      have hpresent : nullableString req.idempotencyKey = some req.idempotencyKey :=
        nullableString_of_ne hkey
      rwa [← hpresent]
  | duplicate =>
      obtain rfl : _ = requestJob req := hserves
      rfl
  | refound hget =>
      have hkey : _ = req.idempotencyKey := hserves
      rw [hkey] at hget
      exact fun _ => keyedBy_of_lookup hget
  | @published result =>
      cases result with
      | ok id => exact hserves
      | error e => trivial
  | @publishFailed result =>
      cases result with
      | ok id => exact hserves
      | error e => trivial
  | _ => trivial

/-- A call that starts serves its request. -/
theorem EnqueueStep.serves_of_start {nulls : NullText} {db db' : Jobs}
    {kafka kafka' : List Job} {call call' : EnqueueCall} {req : EnqueueRequest}
    (h : EnqueueStep nulls db kafka call (.start req) db' kafka' call') :
    call = .idle ∧ call'.Serves db' req := by
  cases h with
  | started => exact ⟨rfl, rfl⟩
  | startedKeyed => exact ⟨rfl, rfl⟩

/-- **Served.** In every run a call serves its request. -/
theorem served_of_exec {cfg : Config} {as : List Action} {s : Sys}
    (h : exec (step cfg) Sys.init as = some s) {c : ℕ} {req : EnqueueRequest}
    (hstart : .enqueue c (.start req) ∈ as) : (s.enqueues c).Serves s.db req := by
  refine exec_history (H := fun as s => .enqueue c (.start req) ∈ as →
    (s.enqueues c).Serves s.db req) (fun hmem => by cases hmem) ?_ h hstart
  intro as u a v hu ih hstep hmem
  rcases List.mem_append.mp hmem with hold | hnew
  · rcases enqueues_of_step hstep c with heq | ⟨act, -, hmove⟩
    · rw [heq]
      exact (ih hold).step hstep
    · exact hmove.serves (ih hold)
  · rw [List.mem_singleton] at hnew
    subst hnew
    exact (step_enqueue hstep).1.serves_of_start.2

/-- An insertion has the key of the request of its call. -/
theorem key_of_inserted {cfg : Config} {as : List Action} {s : Sys}
    (h : exec (step cfg) Sys.init as = some s) {x : Insertion} (hx : x ∈ inserted cfg as)
    {req : EnqueueRequest} (hstart : .enqueue x.slot (.start req) ∈ as) :
    x.job.idempotencyKey = req.idempotencyKey := by
  refine exec_history (H := fun as s => x ∈ inserted cfg as →
    .enqueue x.slot (.start req) ∈ as → x.job.idempotencyKey = req.idempotencyKey)
    (fun hmem => by cases hmem) ?_ h hx hstart
  intro as u a v hu ih hstep hx hmem
  rw [inserted, logSteps_concat hu hstep] at hx
  rcases List.mem_append.mp hmem with hstart | hlast
  · rcases List.mem_append.mp hx with hold | hnew
    · exact ih hold hstart
    · obtain ⟨rand, createNow, job, db, -, hcall, hjob, -⟩ := insertions_spec hnew
      have hserves := served_of_exec hu hstart
      rw [hcall] at hserves
      obtain rfl : job = requestJob req := hserves
      rw [hjob]
      rfl
  · -- A call that starts has inserted nothing yet.
    rw [List.mem_singleton] at hlast
    subst hlast
    have hidle := (step_enqueue hstep).1.serves_of_start.1
    rcases List.mem_append.mp hx with hold | hnew
    · obtain ⟨result, toPublish, hcall⟩ := (insertionsOk_of_exec hu).slots x hold
      rw [hidle] at hcall
      cases hcall
    · cases hnew

/-! ### What is published -/

/-- The publications `log` of a run: each slot publishes once. -/
structure PublishedOk (log : List (ℕ × Job)) (s : Sys) : Prop where
  slots : (log.map Prod.fst).Nodup
  done : ∀ x ∈ log, ∃ result, s.enqueues x.1 = .returned result none

/-- The publication of an action. -/
theorem publications_spec {s : Sys} {a : Action} {x : ℕ × Job} (hx : x ∈ publications s a) :
    a = .enqueue x.1 .publish ∧ publications s a = [x] ∧
      ∃ result, s.enqueues x.1 = .returned result (some x.2) := by
  unfold publications at hx ⊢
  split at hx
  · split at hx
    · rename_i c _ result job hcall
      rw [List.mem_singleton] at hx
      subst hx
      exact ⟨rfl, by simp, result, hcall⟩
    · cases hx
  · cases hx

/-- Every step keeps the publications of a slot single. -/
theorem step_publishedOk {cfg : Config} {s s' : Sys} {a : Action} {log : List (ℕ × Job)}
    (hok : PublishedOk log s) (h : step cfg s a = some s') :
    PublishedOk (log ++ publications s a) s' := by
  have hdone : ∀ x ∈ log, ∃ result, s'.enqueues x.1 = .returned result none := by
    intro x hx
    obtain ⟨result, hcall⟩ := hok.done x hx
    rcases enqueues_of_step h x.1 with heq | ⟨act, -, hmove⟩
    · exact ⟨result, by rw [heq, hcall]⟩
    · exact ⟨result, hmove.of_returned hcall⟩
  cases hnew : publications s a with
  | nil =>
      rw [List.append_nil]
      exact ⟨hok.slots, hdone⟩
  | cons x xs =>
      obtain ⟨rfl, hsingle, result, hcall⟩ :=
        publications_spec (show x ∈ publications s a by rw [hnew]; exact List.mem_cons_self)
      rw [← hnew, hsingle]
      constructor
      · rw [List.map_append, List.map_singleton]
        refine hok.slots.append (List.nodup_singleton _) ?_
        intro c hold hc
        rw [List.mem_singleton] at hc
        obtain ⟨y, hy, rfl⟩ := List.mem_map.mp hold
        obtain ⟨result', hcall'⟩ := hok.done y hy
        rw [hc, hcall] at hcall'
        cases hcall'
      · intro y hy
        rcases List.mem_append.mp hy with hold | hlast
        · exact hdone y hold
        · rw [List.mem_singleton] at hlast
          subst hlast
          exact ⟨result, (step_enqueue h).1.of_returned hcall⟩

/-- In every run each slot publishes at most once. -/
theorem publishedOk_of_exec {cfg : Config} {as : List Action} {s : Sys}
    (h : exec (step cfg) Sys.init as = some s) : PublishedOk (published cfg as) s := by
  refine exec_history (H := fun as s => PublishedOk (published cfg as) s) ?_ ?_ h
  · exact ⟨List.nodup_nil, by simp [published, logSteps]⟩
  · intro as u a v hu hok hstep
    rw [published, logSteps_concat hu hstep]
    exact step_publishedOk hok hstep

/-- The records a step adds to Kafka are those its action publishes. -/
theorem step_kafka {cfg : Config} {s s' : Sys} {a : Action} (h : step cfg s a = some s') :
    s'.kafka = s.kafka ++ (publications s a).map Prod.snd := by
  cases step_sound h with
  | @enqueue c act db kafka call hstep =>
      have hmove := enqueueStep_sound hstep
      generalize hcall : s.enqueues c = before at hmove
      cases hmove with
      | published => simp [publications, hcall]
      | _ => simp [publications]
  | _ => exact (List.append_nil _).symm

/-- **Kafka.** The records in Kafka are what the calls of the run have published. -/
theorem kafka_of_exec {cfg : Config} {as : List Action} {s : Sys}
    (h : exec (step cfg) Sys.init as = some s) :
    s.kafka = (published cfg as).map Prod.snd := by
  refine exec_history (H := fun as s => s.kafka = (published cfg as).map Prod.snd) rfl ?_ h
  intro as u a v hu ih hstep
  rw [step_kafka hstep, ih, published, published, logSteps_concat hu hstep, List.map_append]

/-- What a call publishes it has inserted. -/
theorem inserted_of_published {cfg : Config} {as : List Action} {s : Sys}
    (h : exec (step cfg) Sys.init as = some s) {x : ℕ × Job} (hx : x ∈ published cfg as) :
    ∃ now, ⟨x.1, now, x.2⟩ ∈ inserted cfg as := by
  obtain ⟨pre, a, post, u, v, rfl, hu, -, hmem⟩ := (mem_logSteps_iff h).mp hx
  obtain ⟨-, -, result, hcall⟩ := publications_spec hmem
  obtain ⟨now, hins, -⟩ := (insertionsOk_of_exec hu).toPublish x.1 result x.2 hcall
  refine ⟨now, ?_⟩
  rw [inserted, logSteps_append hu]
  exact List.mem_append_left _ hins

/-- A list whose entries have distinct names, and whose entries of one kind have one name, has
at most one entry of that kind. -/
theorem countP_le_one_of_nodup {α β : Type} {l : List α} {f : α → β} {p : α → Bool}
    (hnodup : (l.map f).Nodup) (hsame : ∀ x ∈ l, ∀ y ∈ l, p x → p y → f x = f y) :
    l.countP p ≤ 1 := by
  rw [List.countP_eq_length_filter]
  have hsub : (l.filter p).map f ⊆ ((l.filter p).map f).head?.toList := by
    intro z hz
    obtain ⟨x, hx, rfl⟩ := List.mem_map.mp hz
    cases hl : l.filter p with
    | nil => rw [hl] at hx; cases hx
    | cons y ys =>
        have hy : y ∈ l.filter p := by rw [hl]; exact List.mem_cons_self
        rw [List.mem_filter] at hx hy
        simp [hsame x hx.1 y hy.1 hx.2 hy.2]
  have hlen := (List.subperm_of_subset
    (hnodup.sublist (List.filter_sublist.map f)) hsub).length_le
  rw [List.length_map] at hlen
  refine le_trans hlen ?_
  cases ((l.filter p).map f).head? <;> simp

/-- **Idempotent enqueue.** In every run the rows of the table are those that `Enqueue` calls have
inserted, and the records in Kafka are those that they have published. Of the calls with one
non-empty idempotency key: at most one row with the key is inserted; each call that returns an
id returns that of the row with the key; the key is published at most once, and only by the call
that inserted the row. -/
theorem enqueue_idempotent {cfg : Config} {as : List Action} {s : Sys} {key : String}
    (h : exec (step cfg) Sys.init as = some s) (hkey : key ≠ "") :
    (∀ id r, s.db.find? id = some r → ∃ x ∈ inserted cfg as, x.job.id = id) ∧
    s.kafka = (published cfg as).map Prod.snd ∧
    ((inserted cfg as).countP fun x => x.job.idempotencyKey = key) ≤ 1 ∧
    (∀ c req id toPublish, .enqueue c (.start req) ∈ as → req.idempotencyKey = key →
      s.enqueues c = .returned (.ok id) toPublish →
      (s.db.findUniq? key).map Row.id = some id) ∧
    ((published cfg as).countP fun x => x.2.idempotencyKey = key) ≤ 1 ∧
    ∀ c job, (c, job) ∈ published cfg as →
      (∃ now, ⟨c, now, job⟩ ∈ inserted cfg as) ∧
      ∀ req, .enqueue c (.start req) ∈ as → job.idempotencyKey = req.idempotencyKey := by
  have hok := insertionsOk_of_exec h
  refine ⟨hok.origin, kafka_of_exec h, ?_, ?_, ?_, ?_⟩
  · refine countP_le_one_of_nodup hok.ids ?_
    intro x hx y hy hxkey hykey
    rw [hok.eq_of_key hkey hx hy (of_decide_eq_true hxkey) (of_decide_eq_true hykey)]
  · intro c req id toPublish hstart hreq hcall
    have hserves := served_of_exec h hstart
    rw [hcall] at hserves
    obtain ⟨r, hfind, hr⟩ := hserves (by rw [hreq]; exact hkey)
    rw [hreq] at hr
    rw [findUniq?_eq_some_iff.mpr ⟨mem_of_find? hfind, hr⟩, Option.map_some, key_of_find? hfind]
  · refine countP_le_one_of_nodup (publishedOk_of_exec h).slots ?_
    intro x hx y hy hxkey hykey
    obtain ⟨now, hx'⟩ := inserted_of_published h hx
    obtain ⟨now', hy'⟩ := inserted_of_published h hy
    have heq := hok.eq_of_key hkey hx' hy' (of_decide_eq_true hxkey) (of_decide_eq_true hykey)
    exact congrArg Insertion.slot heq
  · intro c job hmem
    obtain ⟨now, hins⟩ := inserted_of_published h hmem
    exact ⟨⟨now, hins⟩, fun req hstart => key_of_inserted h hins hstart⟩

/-- Two calls with the sample request look the key up before either has inserted; the second
insert hits the index. -/
def racingCalls : List Action :=
  [.enqueue 0 (.start sampleRequest), .enqueue 1 (.start sampleRequest), .enqueue 0 .lookup,
    .enqueue 1 .lookup, .enqueue 0 (.insert (sampleRandom 0) 0 0),
    .enqueue 1 (.insert (sampleRandom 1) 0 0), .enqueue 1 .relookup, .enqueue 0 .publish]

/-- Both racing calls return the id of the row that the first one made and published. -/
theorem enqueue_idempotent_racingCalls :
    ∃ s, exec (step ⟨.empty, 5⟩) Sys.init racingCalls = some s ∧
      s.enqueues 1 = .returned (.ok sampleId) none ∧
      (s.db.findUniq? "order-17").map Row.id = some sampleId ∧
      s.kafka = (published ⟨.empty, 5⟩ racingCalls).map Prod.snd ∧
      ((published ⟨.empty, 5⟩ racingCalls).countP
        fun x => x.2.idempotencyKey = "order-17") ≤ 1 := by
  obtain ⟨s, hs, hcall⟩ := (Option.any_eq_true _ _).mp
    (show (exec (step ⟨.empty, 5⟩) Sys.init racingCalls).any (fun s =>
        match s.enqueues 1 with
        | .returned (.ok id) none => id = sampleId
        | .returned (.ok _) (some _) => false
        | .returned (.error _) _ => false
        | .idle | .lookup _ | .insert _ | .relookup _ => false) = true by decide +kernel)
  have hreturned : s.enqueues 1 = .returned (.ok sampleId) none := by
    revert hcall
    split
    · rename_i id heq
      intro hid
      rw [heq, of_decide_eq_true hid]
    all_goals
      intro hfalse
      cases hfalse
  obtain ⟨-, hkafka, -, hids, hpublished, -⟩ :=
    enqueue_idempotent hs (show "order-17" ≠ "" by decide)
  exact ⟨s, hs, hreturned, hids 1 sampleRequest sampleId none (by simp [racingCalls]) rfl hreturned,
    hkafka, hpublished⟩

end Conduit
