import Mathlib.Logic.Function.Basic
import Conduit.Transition
import Conduit.Worker

/-!
# The System

The `jobs` table together with everyone who uses it: any number of API clients with
`Enqueue` and `CancelJob` calls in progress, reconcilers that requeue expired leases and
claim due jobs, the records published to Kafka, and workers with their copies of jobs.
An `Action` is one atomic step of one of them, and `step` performs it, so a list of
actions is an interleaving of all parties.

A slot (a natural number) holds one `Enqueue` call, one `CancelJob` call or one copy of a
job, and is used once; which server instance it belongs to does not matter. A Kafka record
is never removed, since the transport may deliver it again at any time.

## Main results

* `step_rowChange`: what one step can do to a row.
* `step_workerChange`: what one step can do to a worker.
* `Sys.Inv`, `step_inv`: the calls, the published records and the copies of jobs are as
  their place in the code says.
* `Sys.Inv.rowOrigin`: where a row of the table comes from.
-/

namespace Conduit

open KeyedTable Transition

/-- The state of the system. -/
structure Sys where
  db : Jobs
  kafka : List Job
  workers : ℕ → Worker
  cancels : ℕ → CancelCall
  enqueues : ℕ → EnqueueCall

/-- An empty table and nobody at work. -/
def Sys.init : Sys where
  db := empty
  kafka := []
  workers _ := .unused
  cancels _ := .idle
  enqueues _ := .idle

/-- One atomic step of one of the parties. -/
inductive Action
  /-- A step of the `Enqueue` call in slot `c`. -/
  | enqueue (c : ℕ) (act : EnqueueAct)
  /-- A step of the `CancelJob` call in slot `c`. -/
  | cancel (c : ℕ) (act : CancelAct)
  /-- A reconciler's `RequeueExpiredRunning`. -/
  | requeue (dbNow : Timestamp) (limit : ℤ) (locked : List String)
  /-- A reconciler's `ClaimNextJob`; a claimed job goes to slot `i`. -/
  | claimNext (i : ℕ) (call : ClaimCall)
  /-- Kafka delivers the record at index `k`, and the pool accepts it into slot `i`. -/
  | deliver (i : ℕ) (k : ℕ)
  /-- A step of the worker in slot `i`. -/
  | worker (i : ℕ) (act : WorkerAct)

/-- One step of the system; `none` when the action is not enabled. -/
def step (cfg : Config) (s : Sys) : Action → Option Sys
  | .enqueue c act =>
    match enqueueStep cfg.nulls s.db s.kafka (s.enqueues c) act with
    | none => none
    | some (db, kafka, call) =>
      some { s with db := db, kafka := kafka, enqueues := Function.update s.enqueues c call }
  | .cancel c act =>
    match cancelStep cfg.nulls s.db (s.cancels c) act with
    | none => none
    | some (db, call) => some { s with db := db, cancels := Function.update s.cancels c call }
  | .requeue dbNow limit locked =>
    some { s with db := (requeueExpiredRunning dbNow limit locked s.db).1 }
  | .claimNext i call =>
    if (s.workers i).pc = .idle then
      match claimNextJob cfg.nulls call s.db with
      | (db, .ok job) =>
        some { s with db := db, workers := Function.update s.workers i ⟨.claimed, job, false⟩ }
      | (db, .error _) => some { s with db := db }
    else none
  | .deliver i k =>
    if (s.workers i).pc = .idle then
      match s.kafka[k]? with
      | some job =>
        some { s with workers := Function.update s.workers i ⟨.queued, viaJson job, false⟩ }
      | none => none
    else none
  | .worker i act =>
    match workerStep cfg s.db (s.workers i) act with
    | none => none
    | some (db, w) => some { s with db := db, workers := Function.update s.workers i w }

/-- The steps of the system, one by one. -/
inductive SysStep (cfg : Config) (s : Sys) : Action → Sys → Prop
  | enqueue {c : ℕ} {act : EnqueueAct} {db : Jobs} {kafka : List Job} {call : EnqueueCall}
      (h : enqueueStep cfg.nulls s.db s.kafka (s.enqueues c) act = some (db, kafka, call)) :
      SysStep cfg s (.enqueue c act)
        { s with db := db, kafka := kafka, enqueues := Function.update s.enqueues c call }
  | cancel {c : ℕ} {act : CancelAct} {db : Jobs} {call : CancelCall}
      (h : cancelStep cfg.nulls s.db (s.cancels c) act = some (db, call)) :
      SysStep cfg s (.cancel c act)
        { s with db := db, cancels := Function.update s.cancels c call }
  | requeue {dbNow : Timestamp} {limit : ℤ} {locked : List String} :
      SysStep cfg s (.requeue dbNow limit locked)
        { s with db := (requeueExpiredRunning dbNow limit locked s.db).1 }
  | claimed {i : ℕ} {call : ClaimCall} {r : Row} {job : Job}
      (hidle : (s.workers i).pc = .idle) (hsel : selectDue call s.db = some r)
      (hscan : scanJob cfg.nulls ((claimEdit call).apply r) = .ok job) :
      SysStep cfg s (.claimNext i call)
        { s with
          db := s.db.update (fun x => x.id = r.id) (claimEdit call)
          workers := Function.update s.workers i ⟨.claimed, job, false⟩ }
  | claimLost {i : ℕ} {call : ClaimCall} {r : Row} {e : StoreError}
      (hidle : (s.workers i).pc = .idle) (hsel : selectDue call s.db = some r)
      (hscan : scanJob cfg.nulls ((claimEdit call).apply r) = .error e) :
      SysStep cfg s (.claimNext i call)
        { s with db := s.db.update (fun x => x.id = r.id) (claimEdit call) }
  | nothingDue {i : ℕ} {call : ClaimCall} (hidle : (s.workers i).pc = .idle)
      (hsel : selectDue call s.db = none) : SysStep cfg s (.claimNext i call) s
  | deliver {i k : ℕ} {job : Job} (hidle : (s.workers i).pc = .idle)
      (hjob : s.kafka[k]? = some job) :
      SysStep cfg s (.deliver i k)
        { s with workers := Function.update s.workers i ⟨.queued, viaJson job, false⟩ }
  | worker {i : ℕ} {act : WorkerAct} {db : Jobs} {w : Worker}
      (h : WorkerStep cfg s.db (s.workers i) act db w) :
      SysStep cfg s (.worker i act)
        { s with db := db, workers := Function.update s.workers i w }

/-- Every step of the system is one of the listed steps. -/
theorem step_sound {cfg : Config} {s s' : Sys} {a : Action} (h : step cfg s a = some s') :
    SysStep cfg s a s' := by
  cases a with
  | enqueue c act =>
      simp only [step] at h
      split at h
      · cases h
      · rename_i hstep
        cases h
        exact .enqueue hstep
  | cancel c act =>
      simp only [step] at h
      split at h
      · cases h
      · rename_i hstep
        cases h
        exact .cancel hstep
  | requeue dbNow limit locked =>
      simp only [step] at h
      cases h
      exact .requeue
  | claimNext i call =>
      simp only [step] at h
      split at h
      · rename_i hidle
        cases hsel : selectDue call s.db with
        | none =>
            simp only [claimNextJob, hsel] at h
            cases h
            exact .nothingDue hidle hsel
        | some r =>
            simp only [claimNextJob, hsel] at h
            cases hscan : scanJob cfg.nulls ((claimEdit call).apply r) with
            | ok job =>
                rw [hscan] at h
                cases h
                exact .claimed hidle hsel hscan
            | error e =>
                rw [hscan] at h
                cases h
                exact .claimLost hidle hsel hscan
      · cases h
  | deliver i k =>
      simp only [step] at h
      split at h
      · rename_i hidle
        split at h
        · rename_i job hjob
          cases h
          exact .deliver hidle hjob
        · cases h
      · cases h
  | worker i act =>
      simp only [step] at h
      split at h
      · cases h
      · rename_i hstep
        cases h
        exact .worker (workerStep_sound hstep)

/-- The tokens an action draws from the random source. -/
def Action.drawn : Action → List String
  | .claimNext _ call => [newLeaseToken call.rand]
  | .worker _ (.prepare _ _ rand) => [newWorkerLeaseToken rand]
  | _ => []

/-- The tokens a run draws, in order. -/
def drawnTokens (as : List Action) : List String := as.flatMap Action.drawn

/-! ### Rows -/

/-- What one action can do to a row of the table. -/
inductive RowChange (s : Sys) (r : Row) : Action → Row → Prop
  | same {a : Action} : RowChange s r a r
  | cancelled {c : ℕ} {now : Time} (hcall : s.cancels c = .write r.id) :
      RowChange s r (.cancel c (.write now)) ((cancelEdit now).apply r)
  | requeued {dbNow : Timestamp} {limit : ℤ} {locked : List String}
      (hexp : leaseExpired dbNow locked r = true) :
      RowChange s r (.requeue dbNow limit locked) ((requeueEdit dbNow).apply r)
  | claimed {i : ℕ} {call : ClaimCall} (hsel : selectDue call s.db = some r)
      (hstate : r.state = .pending) :
      RowChange s r (.claimNext i call) ((claimEdit call).apply r)
  | updated {i : ℕ} {p : Phase} {now : Time} (hpc : (s.workers i).pc = .write p)
      (hmatch : updateMatches (s.workers i).job r = true) :
      RowChange s r (.worker i (.write now)) ((updateEdit now (s.workers i).job).apply r)
  | renewed {i : ℕ} {now : Time} {dbNow : Timestamp} {lease : Duration}
      (hmatch : holdsClaim (s.workers i).job r = true) :
      RowChange s r (.worker i (.renew now dbNow lease))
        ((renewEdit now dbNow (effectiveLease lease)).apply r)
  | released {i : ℕ} {dbNow : Timestamp} {reason : String}
      (hpc : (s.workers i).pc = .release reason)
      (hmatch : holdsClaim (s.workers i).job r = true) :
      RowChange s r (.worker i (.releaseClaim dbNow)) ((releaseEdit dbNow reason).apply r)

/-- The row after an action. -/
def rowAfter (s : Sys) (a : Action) (r : Row) : Row :=
  match a with
  | .cancel c (.write now) =>
    match s.cancels c with
    | .write id => editWhere (fun x => x.id = id) (cancelEdit now) r
    | _ => r
  | .requeue dbNow limit locked =>
    if limit ≤ 0 then r
    else editWhere (fun x => x.id ∈ expiredIds dbNow limit locked s.db) (requeueEdit dbNow) r
  | .claimNext _ call =>
    match selectDue call s.db with
    | none => r
    | some x => editWhere (fun y => y.id = x.id) (claimEdit call) r
  | .worker i act => workerEdit (s.workers i) act r
  | _ => r

/-- A row the action does not select is left alone; a selected one is edited. -/
theorem rowAfter_rowChange {s : Sys} {r : Row} (hfind : s.db.find? r.id = some r)
    (a : Action) : RowChange s r a (rowAfter s a r) := by
  unfold rowAfter
  split
  · split
    · rename_i c now id hcall
      unfold editWhere
      split
      · rename_i hid
        exact .cancelled (by rw [hcall, of_decide_eq_true hid])
      · exact .same
    · exact .same
  · split
    · exact .same
    · unfold editWhere
      split
      · rename_i hid
        exact .requeued (leaseExpired_of_mem_expiredIds hfind (of_decide_eq_true hid))
      · exact .same
  · split
    · exact .same
    · rename_i call x hsel
      obtain ⟨hx, hstate, -⟩ := selectDue_spec hsel
      unfold editWhere
      split
      · rename_i hid
        rw [← of_decide_eq_true hid, hfind] at hx
        obtain rfl : r = x := Option.some.inj hx
        exact .claimed hsel hstate
      · exact .same
  · rename_i i act
    unfold workerEdit
    split
    · rename_i hpc
      unfold editWhere
      split
      · rename_i hmatch
        exact .updated hpc hmatch
      · exact .same
    · split
      · exact .same
      · unfold editWhere
        split
        · rename_i hmatch
          exact .renewed hmatch
        · exact .same
    · rename_i hpc
      unfold editWhere
      split
      · rename_i hmatch
        exact .released hpc hmatch
      · exact .same
    · exact .same
  · exact .same

/-- A worker's `UPDATE` edits the row its `WHERE` clause finds. -/
theorem rowAfter_write {s : Sys} {i : ℕ} {p : Phase} {r : Row}
    (hpc : (s.workers i).pc = .write p)
    (hmatch : updateMatches (s.workers i).job r = true) (now : Time) :
    rowAfter s (.worker i (.write now)) r = (updateEdit now (s.workers i).job).apply r := by
  simp only [rowAfter, workerEdit_write hpc]
  exact editWhere_of_true _ hmatch

/-- The `UPDATE` of a cancel edits the row it names. -/
theorem rowAfter_cancel {s : Sys} {c : ℕ} {r : Row} (hcall : s.cancels c = .write r.id)
    (now : Time) : rowAfter s (.cancel c (.write now)) r = (cancelEdit now).apply r := by
  simp only [rowAfter, hcall]
  exact editWhere_of_true _ (decide_eq_true rfl)

/-- `ClaimNextJob` edits the row it selects. -/
theorem rowAfter_claimNext {s : Sys} {call : ClaimCall} {r : Row}
    (hsel : selectDue call s.db = some r) (i : ℕ) :
    rowAfter s (.claimNext i call) r = (claimEdit call).apply r := by
  simp only [rowAfter, hsel]
  exact editWhere_of_true _ (decide_eq_true rfl)

/-- The action requeues job `k` because its lease has expired. -/
def requeues (k : String) (s : Sys) : Action → Bool
  | .requeue dbNow limit locked => 0 < limit && k ∈ expiredIds dbNow limit locked s.db
  | _ => false

/-- A row that is not requeued stays as it is under `RequeueExpiredRunning`. -/
theorem rowAfter_requeue {s : Sys} {dbNow : Timestamp} {limit : ℤ} {locked : List String}
    {r : Row} (hnot : requeues r.id s (.requeue dbNow limit locked) = false) :
    rowAfter s (.requeue dbNow limit locked) r = r := by
  simp only [requeues, Bool.and_eq_false_iff, decide_eq_false_iff_not, not_lt] at hnot
  simp only [rowAfter]
  split
  · rfl
  · rename_i hlimit
    rcases hnot with hle | hout
    · exact absurd hle hlimit
    · exact editWhere_of_false _ (decide_eq_false hout)

/-- The action is the `UPDATE` of a cancel of job `k`. -/
def cancelsRow (k : String) (s : Sys) : Action → Bool
  | .cancel c (.write _) => s.cancels c = .write k
  | _ => false

/-- A row of the table is found under its own id. -/
theorem find?_id {db : Jobs} {k : String} {r : Row} (h : db.find? k = some r) :
    db.find? r.id = some r := by
  rw [key_of_find? h]
  exact h

/-- `RequeueExpiredRunning`, row by row. -/
theorem find?_requeueExpiredRunning (dbNow : Timestamp) (limit : ℤ) (locked : List String)
    (db : Jobs) (k : String) :
    (requeueExpiredRunning dbNow limit locked db).1.find? k =
      (db.find? k).map fun r =>
        if limit ≤ 0 then r
        else editWhere (fun x => x.id ∈ expiredIds dbNow limit locked db)
          (requeueEdit dbNow) r := by
  unfold requeueExpiredRunning
  split
  · simp
  · exact find?_update db _ _ k

/-- A step of a `CancelJob` call, row by row. -/
theorem find?_cancelStep {nulls : NullText} {s : Sys} {c : ℕ} {act : CancelAct} {db : Jobs}
    {call : CancelCall} (h : cancelStep nulls s.db (s.cancels c) act = some (db, call))
    (k : String) : db.find? k = (s.db.find? k).map (rowAfter s (.cancel c act)) := by
  unfold cancelStep at h
  split at h
  case h_2 => split at h <;> cases h <;> exact Option.map_id'.symm
  case h_3 now id hcall =>
    cases h
    have hedit : rowAfter s (.cancel c (.write now)) =
        editWhere (fun x => x.id = id) (cancelEdit now) := by
      funext r
      simp only [rowAfter, hcall]
    rw [hedit]
    exact find?_update _ _ _ _
  all_goals cases h
  all_goals exact Option.map_id'.symm

/-- **The rows of a step.** Every step but the insertion of a job acts on the table row by
row, as `rowAfter` says. -/
theorem SysStep.find? {cfg : Config} {s s' : Sys} {a : Action} (h : SysStep cfg s a s')
    (k : String) :
    s'.db.find? k = (s.db.find? k).map (rowAfter s a) ∨
      s.db.find? k = none ∧ ∃ c job rand now createNow,
        a = .enqueue c (.insert rand now createNow) ∧ s.enqueues c = .insert job ∧
        createJob createNow (prepareJob rand now job) s.db = .ok s'.db ∧
        s'.db.find? k = some (insertRow createNow (prepareJob rand now job)) := by
  have hclaim : ∀ {i call r}, selectDue call s.db = some r →
      rowAfter s (.claimNext i call) = editWhere (fun x => x.id = r.id) (claimEdit call) := by
    intro i call r hsel
    funext x
    simp only [rowAfter, hsel]
  cases h with
  | @enqueue c act db kafka call hstep =>
      have hid : s.db.find? k = (s.db.find? k).map (rowAfter s (.enqueue c act)) :=
        Option.map_id'.symm
      rcases enqueueStep_db hstep with rfl | ⟨job, rand, now, createNow, rfl, hcall, hcreate⟩
      · exact .inl hid
      · rw [find?_createJob hcreate k]
        split
        · rename_i hk
          refine .inr ⟨?_, c, job, rand, now, createNow, rfl, hcall, hcreate, rfl⟩
          rw [← hk]
          exact find?_of_createJob hcreate
        · exact .inl hid
  | cancel hstep => exact .inl (find?_cancelStep hstep k)
  | requeue => exact .inl (find?_requeueExpiredRunning _ _ _ _ k)
  | claimed _ hsel _ => rw [hclaim hsel]; exact .inl (find?_update _ _ _ k)
  | claimLost _ hsel _ => rw [hclaim hsel]; exact .inl (find?_update _ _ _ k)
  | @nothingDue i call _ hsel =>
      have hid : rowAfter s (.claimNext i call) = id := by
        funext x
        simp only [rowAfter, hsel, id]
      rw [hid]
      exact .inl Option.map_id'.symm
  | deliver => exact .inl Option.map_id'.symm
  | worker hstep => exact .inl (hstep.find? k)

/-- A row of the table becomes the row `rowAfter` computes. -/
theorem step_find? {cfg : Config} {s s' : Sys} {a : Action} (h : step cfg s a = some s')
    {k : String} {r : Row} (hfind : s.db.find? k = some r) :
    s'.db.find? k = some (rowAfter s a r) := by
  rcases (step_sound h).find? k with heq | ⟨hnone, -⟩
  · rw [heq, hfind]
    rfl
  · rw [hfind] at hnone
    cases hnone

/-- What one step can do to a row. -/
theorem step_rowChange {cfg : Config} {s s' : Sys} {a : Action} (h : step cfg s a = some s')
    {k : String} {r : Row} (hfind : s.db.find? k = some r) :
    ∃ r', s'.db.find? k = some r' ∧ RowChange s r a r' := by
  exact ⟨rowAfter s a r, step_find? h hfind, rowAfter_rowChange (find?_id hfind) a⟩

/-- The row under a key before a step and the row under it afterwards. -/
theorem rowChange_of_find? {cfg : Config} {s s' : Sys} {a : Action}
    (h : step cfg s a = some s') {k : String} {r r' : Row} (hfind : s.db.find? k = some r)
    (hfind' : s'.db.find? k = some r') : RowChange s r a r' := by
  rw [step_find? h hfind] at hfind'
  obtain rfl := Option.some.inj hfind'
  exact rowAfter_rowChange (find?_id hfind) a

/-! ### Workers -/

/-- What one action can do to the worker in slot `i`. -/
inductive WorkerChange (cfg : Config) (s s' : Sys) (i : ℕ) : Action → Prop
  | same {a : Action} (heq : s'.workers i = s.workers i)
      (hother : ∀ act, a ≠ .worker i act) : WorkerChange cfg s s' i a
  | claimed {call : ClaimCall} {r : Row} (hidle : (s.workers i).pc = .idle)
      (hsel : selectDue call s.db = some r)
      (heq : s'.workers i = ⟨.claimed, ((claimEdit call).apply r).toJob, false⟩) :
      WorkerChange cfg s s' i (.claimNext i call)
  | delivered {k : ℕ} {job : Job} (hidle : (s.workers i).pc = .idle) (hjob : job ∈ s.kafka)
      (heq : s'.workers i = ⟨.queued, viaJson job, false⟩) :
      WorkerChange cfg s s' i (.deliver i k)
  | moved {act : WorkerAct} (h : WorkerStep cfg s.db (s.workers i) act s'.db (s'.workers i)) :
      WorkerChange cfg s s' i (.worker i act)

/-- **The workers of a step.** -/
theorem step_workerChange {cfg : Config} {s s' : Sys} {a : Action}
    (h : step cfg s a = some s') (i : ℕ) : WorkerChange cfg s s' i a := by
  have hother : ∀ {j : ℕ} {w : Worker}, i ≠ j →
      Function.update s.workers j w i = s.workers i := fun hne =>
    Function.update_of_ne hne _ _
  cases step_sound h with
  | enqueue => exact .same rfl nofun
  | cancel => exact .same rfl nofun
  | requeue => exact .same rfl nofun
  | claimLost => exact .same rfl nofun
  | nothingDue => exact .same rfl nofun
  | @claimed j call r job hidle hsel hscan =>
      by_cases hij : i = j
      · subst hij
        obtain ⟨rfl, -⟩ := scanJob_eq_ok_iff.mp hscan
        exact .claimed hidle hsel (Function.update_self _ _ _)
      · exact .same (hother hij) nofun
  | @deliver j k job hidle hjob =>
      by_cases hij : i = j
      · subst hij
        exact .delivered hidle (List.mem_of_getElem? hjob) (Function.update_self _ _ _)
      · exact .same (hother hij) nofun
  | @worker j act db w hstep =>
      by_cases hij : i = j
      · subst hij
        refine .moved ?_
        dsimp only
        rw [Function.update_self]
        exact hstep
      · exact .same (hother hij) fun act heq => hij (by cases heq; rfl)

/-- An action of a worker moves that worker. -/
theorem step_worker_self {cfg : Config} {s s' : Sys} {i : ℕ} {act : WorkerAct}
    (h : step cfg s (.worker i act) = some s') :
    WorkerStep cfg s.db (s.workers i) act s'.db (s'.workers i) := by
  cases step_workerChange h i with
  | same _ hother => exact absurd rfl (hother _)
  | moved hmove => exact hmove

/-- An action of a worker moves no other worker. -/
theorem step_worker_ne {cfg : Config} {s s' : Sys} {i j : ℕ} {act : WorkerAct}
    (h : step cfg s (.worker i act) = some s') (hj : j ≠ i) : s'.workers j = s.workers j := by
  cases step_workerChange h j with
  | same heq => exact heq
  | moved => exact absurd rfl hj

/-- A worker at work stays as it is or moves. -/
theorem step_worker_used {cfg : Config} {s s' : Sys} {a : Action} (h : step cfg s a = some s')
    {i : ℕ} (hw : (s.workers i).pc ≠ .idle) :
    s'.workers i = s.workers i ∨ ∃ act, a = .worker i act ∧
      WorkerStep cfg s.db (s.workers i) act s'.db (s'.workers i) := by
  cases step_workerChange h i with
  | same heq => exact .inl heq
  | claimed hidle => exact absurd hidle hw
  | delivered hidle => exact absurd hidle hw
  | moved hmove => exact .inr ⟨_, rfl, hmove⟩

/-- A property of program counters that `idle` has not, and that moves keep, is kept. -/
theorem step_pc_kept {P : Pc → Bool} {cfg : Config} (hidle : P .idle = false)
    (hkeep : ∀ {db db' : Jobs} {w w' : Worker} {act : WorkerAct},
      WorkerStep cfg db w act db' w' → P w.pc = true → P w'.pc = true)
    {s s' : Sys} {a : Action} (h : step cfg s a = some s') {i : ℕ}
    (hs : P (s.workers i).pc = true) : P (s'.workers i).pc = true := by
  rcases step_worker_used h (Pc.ne_idle hidle hs) with heq | ⟨act, -, hmove⟩
  · rw [heq]
    exact hs
  · exact hkeep hmove hs

/-! ### What the parties carry -/

/-- The calls, the published records and the copies of jobs are as their place in the code
says. -/
structure Sys.Inv (s : Sys) : Prop where
  kafka : ∀ job ∈ s.kafka, FreshJob job
  enqueues : ∀ c, (s.enqueues c).Ok
  workers : ∀ i, (s.workers i).JobOk

theorem inv_init : Sys.init.Inv where
  kafka := by simp [Sys.init]
  enqueues _ := trivial
  workers _ := trivial

/-- Where a row of the table comes from: the step made it from the row before, or it is the
row of a fresh job that an `Enqueue` call inserted. -/
theorem Sys.Inv.rowOrigin {cfg : Config} {s s' : Sys} {a : Action} (hinv : s.Inv)
    (h : step cfg s a = some s') {k : String} {r' : Row} (hfind : s'.db.find? k = some r') :
    (∃ r, s.db.find? k = some r ∧ RowChange s r a r') ∨
      s.db.find? k = none ∧ ∃ job now, FreshJob job ∧ r' = insertRow now job := by
  cases hold : s.db.find? k with
  | some r =>
      exact .inl ⟨r, rfl, rowChange_of_find? h hold hfind⟩
  | none =>
      rcases (step_sound h).find? k with heq | ⟨-, c, job, rand, now, createNow, -, hcall, -, heq⟩
      · rw [hfind, hold] at heq
        cases heq
      · have hok := hinv.enqueues c
        rw [hcall] at hok
        rw [hfind] at heq
        exact .inr ⟨rfl, _, createNow, hok.fresh rand now, Option.some.inj heq⟩

/-- What a worker about to write carries. -/
theorem Sys.Inv.phase {s : Sys} (hinv : s.Inv) {i : ℕ} {p : Phase}
    (hpc : (s.workers i).pc = .write p) : p.JobOk (s.workers i).job := by
  have hjob : (s.workers i).JobOk := hinv.workers i
  rw [Worker.JobOk, hpc] at hjob
  exact hjob

/-- A claimed row is read back as a claimed copy. -/
theorem claimedJob_toJob (call : ClaimCall) (r : Row) :
    ClaimedJob ((claimEdit call).apply r).toJob :=
  ⟨rfl, newLeaseToken_ne_empty call.rand, rfl, rfl⟩

/-- Every step keeps what the parties carry. -/
theorem step_inv {cfg : Config} {s s' : Sys} {a : Action} (hinv : s.Inv)
    (h : step cfg s a = some s') : s'.Inv := by
  have hworkers : ∀ i, (s'.workers i).JobOk := by
    intro i
    cases step_workerChange h i with
    | same heq => rw [heq]; exact hinv.workers i
    | claimed _ _ heq => rw [heq]; exact claimedJob_toJob _ _
    | delivered _ hjob heq => rw [heq]; exact .inr (hinv.kafka _ hjob).viaJson
    | moved hmove => exact hmove.jobOk (hinv.workers i)
  cases step_sound h with
  | @enqueue c act db kafka call hstep =>
      obtain ⟨hcall, hkafka⟩ := enqueueStep_ok (hinv.enqueues c) hinv.kafka hstep
      refine ⟨hkafka, ?_, hworkers⟩
      intro c'
      dsimp only
      by_cases hc : c' = c
      · rw [hc, Function.update_self]
        exact hcall
      · rw [Function.update_of_ne hc]
        exact hinv.enqueues c'
  | _ => exact ⟨hinv.kafka, hinv.enqueues, hworkers⟩

/-- What the parties carry, in every state of every run. -/
theorem inv_of_exec {cfg : Config} {as : List Action} {s : Sys}
    (h : exec (step cfg) Sys.init as = some s) : s.Inv :=
  exec_invariant (fun _ _ _ => step_inv) inv_init h

/-! ### A job to follow

The pieces the concrete runs of the later modules are made of. -/

/-- A request for a webhook call with three attempts, due at once. -/
def sampleRequest : EnqueueRequest where
  idempotencyKey := "order-17"
  task := ⟨"t1", "webhook", none, 0, 3, 0, "", "default", none⟩
  scheduledAt := none
  metadata := none

/-- The id of the sample job. -/
def sampleId : String := newJobID (sampleRandom 0)

/-- Enqueue a request with an idempotency key, under the sample id, and publish it. -/
def enqueueAndPublish (req : EnqueueRequest) : List Action :=
  [.enqueue 0 (.start req), .enqueue 0 .lookup,
    .enqueue 0 (.insert (sampleRandom 0) 0 0), .enqueue 0 .publish]

/-- Enqueue the sample job and publish it. -/
def enqueueSample : List Action := enqueueAndPublish sampleRequest

/-- A reconciler claims the next due job into slot `i` under the token of byte `b`. -/
def claimSample (i : ℕ) (b : UInt8) (now : Time) : Action :=
  .claimNext i ⟨now, toTimestamp now, 5 * 60 * second, sampleRandom b, []⟩

/-- Actions of the worker in slot `i`, in order. -/
def workerActs (i : ℕ) (acts : List WorkerAct) : List Action := acts.map (.worker i)

/-- The worker in slot `i` takes a submitted claimed copy to the handler. -/
def runClaimed (i : ℕ) (now : Time) : List Action :=
  workerActs i [.submit true, .begin, .checkDue now, .allow true, .acquire true, .exec]

end Conduit
