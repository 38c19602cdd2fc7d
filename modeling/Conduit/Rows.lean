import Conduit.System

/-!
# The Columns of a Row

What a row of the `jobs` table can hold in a state of the running system. The lease
columns follow the state: they are empty while a job waits, filled while it runs, and a
completed job has released its lease. Cancelling leaves them as they are, so nothing is
said about the lease of a `DEAD` row.

The columns are written by seven operations, two of which act on a test made earlier.
None of the argument depends on that test: what a worker writes is determined by where it
stands in `Run` (`Worker.JobOk`), whatever has happened to the row meanwhile.

## Main results

* `rowOk_of_rowChange`: each of the seven writes keeps `RowOk`.
* `leaseColumns_of_exec`: the lease columns match the state in every reachable table.
-/

namespace Conduit

open KeyedTable Transition

/-- The lease columns match the state. -/
structure LeaseColumns (r : Row) : Prop where
  pending : r.state = .pending →
    r.leaseToken = none ∧ r.leaseExpiresAt = none ∧ r.startedAt = none
  running : r.state = .running →
    r.leaseToken ≠ none ∧ r.leaseExpiresAt ≠ none ∧ r.startedAt ≠ none
  failed : r.state = .failed → r.leaseToken ≠ none
  completed : r.state = .completed →
    r.leaseToken = none ∧ r.leaseExpiresAt = none ∧ r.completedAt ≠ none

/-- What a row of a reachable table holds. -/
structure RowOk (r : Row) : Prop where
  leaseColumns : LeaseColumns r
  /-- The state is one of the five of the state machine. -/
  state : ∀ text, r.state ≠ .other text
  /-- The nullable text columns that no operation sets to `NULL`. -/
  texts : r.taskCronExpr.isSome ∧ r.lastError.isSome

/-- A freshly inserted row. -/
theorem rowOk_insertRow {job : Job} (h : FreshJob job) (now : Time) :
    RowOk (insertRow now job) where
  leaseColumns := by
    constructor <;> simp [insertRow, h.state, h.leaseToken, h.startedAt, h.leaseExpiresAt]
  state := by simp [insertRow, h.state]
  texts := ⟨rfl, rfl⟩

/-- The row after a worker's `UPDATE`, for each of the five calls. -/
theorem rowOk_updateEdit {p : Phase} {job : Job} {r : Row} (hjob : p.JobOk job)
    (hr : RowOk r) (now : Time) : RowOk ((updateEdit now job).apply r) where
  leaseColumns := by
    cases p with
    | claim =>
        obtain ⟨⟨hstate, htoken, hstart, hlease⟩, -⟩ := hjob
        constructor <;>
          simp_all [updateEdit, nullableString_of_ne, Option.isSome_iff_ne_none]
    | complete =>
        obtain ⟨hstate, -, hlease, hdone⟩ := hjob
        constructor <;> simp_all [updateEdit, Option.isSome_iff_ne_none]
    | fail =>
        obtain ⟨hstate, htoken⟩ := hjob
        constructor <;> simp_all [updateEdit, nullableString_of_ne]
    | reschedule =>
        obtain ⟨hstate, -, hstart, hlease⟩ := hjob
        constructor <;> simp_all [updateEdit]
    | deadLetter =>
        obtain ⟨hstate, -⟩ := hjob
        constructor <;> simp_all [updateEdit]
  state := by
    intro text
    change job.state ≠ .other text
    rw [hjob.state_eq]
    cases p <;> exact nofun
  texts := ⟨hr.texts.1, rfl⟩

/-- A cancelled row: nothing is asked of the lease columns of a `DEAD` row. -/
theorem rowOk_cancelEdit {r : Row} (hr : RowOk r) (now : Time) :
    RowOk ((cancelEdit now).apply r) where
  leaseColumns := by constructor <;> simp [cancelEdit]
  state := by simp [cancelEdit]
  texts := hr.texts

/-- A row that `ClaimNextJob` has claimed. -/
theorem rowOk_claimEdit {r : Row} (hr : RowOk r) (call : ClaimCall) :
    RowOk ((claimEdit call).apply r) where
  leaseColumns := by constructor <;> simp [claimEdit]
  state := by simp [claimEdit]
  texts := hr.texts

/-- A row whose claim was given back. -/
theorem rowOk_releaseEdit {r : Row} (hr : RowOk r) (dbNow : Timestamp) (reason : String) :
    RowOk ((releaseEdit dbNow reason).apply r) where
  leaseColumns := by constructor <;> simp [releaseEdit]
  state := by simp [releaseEdit]
  texts := ⟨hr.texts.1, rfl⟩

/-- **Each write keeps the columns in order.** -/
theorem rowOk_of_rowChange {s : Sys} {a : Action} {r r' : Row} (hinv : s.Inv)
    (h : RowChange s r a r') (hr : RowOk r) : RowOk r' := by
  cases h with
  | same => exact hr
  | cancelled => exact rowOk_cancelEdit hr _
  | @requeued dbNow limit locked =>
      refine ⟨?_, ?_, hr.texts.1, rfl⟩
      · constructor <;> simp [requeueEdit] <;> split <;> simp
      · intro text
        simp only [requeueEdit]
        split <;> simp
  | claimed => exact rowOk_claimEdit hr _
  | @updated i p now hpc hmatch =>
      exact rowOk_updateEdit (hinv.phase hpc) hr now
  | @renewed i now dbNow lease hmatch =>
      simp only [holdsClaim, decide_eq_true_eq] at hmatch
      obtain ⟨-, hstate, -⟩ := hmatch
      have hrun := hr.leaseColumns.running hstate
      refine ⟨?_, hr.state, hr.texts⟩
      constructor <;> simp [renewEdit, hstate, hrun]
  | released => exact rowOk_releaseEdit hr _ _

/-- Every row of the table is in order. -/
def Sys.RowsOk (s : Sys) : Prop := ∀ k r, s.db.find? k = some r → RowOk r

/-- Every step keeps every row in order. -/
theorem step_rowsOk {cfg : Config} {s s' : Sys} {a : Action} (hinv : s.Inv) (hrows : s.RowsOk)
    (h : step cfg s a = some s') : s'.RowsOk := by
  intro k r' hfind
  rcases hinv.rowOrigin h hfind with ⟨r, hr, hchange⟩ | ⟨-, job, now, hfresh, rfl⟩
  · exact rowOk_of_rowChange hinv hchange (hrows k r hr)
  · exact rowOk_insertRow hfresh now

/-- The invariant of the whole system: what the parties carry and what the rows hold. -/
def Sys.Ok (s : Sys) : Prop := s.Inv ∧ s.RowsOk

theorem ok_init : Sys.init.Ok := by
  refine ⟨inv_init, ?_⟩
  intro k r hfind
  rw [Sys.init, find?_empty] at hfind
  cases hfind

theorem step_ok {cfg : Config} (s : Sys) (a : Action) (s' : Sys) (hok : s.Ok)
    (h : step cfg s a = some s') : s'.Ok :=
  ⟨step_inv hok.1 h, step_rowsOk hok.1 hok.2 h⟩

/-- The invariant holds in every state of every run. -/
theorem ok_of_exec {cfg : Config} {as : List Action} {s : Sys}
    (h : exec (step cfg) Sys.init as = some s) : s.Ok :=
  exec_invariant step_ok ok_init h

/-- **Lease columns match the state**, in every row of every table that a run reaches. -/
theorem leaseColumns_of_exec {cfg : Config} {as : List Action} {s : Sys}
    (h : exec (step cfg) Sys.init as = some s) {r : Row} (hr : r ∈ s.db.rows) :
    LeaseColumns r :=
  ((ok_of_exec h).2 r.id r (find?_of_mem hr)).leaseColumns

/-- The sample job, enqueued and claimed, is a `RUNNING` row with its lease columns set. -/
theorem leaseColumns_of_exec_claimed :
    ∃ s r, exec (step ⟨.reject, 5⟩) Sys.init (enqueueSample ++ [claimSample 0 1 0]) = some s ∧
      r ∈ s.db.rows ∧ r.state = .running ∧ LeaseColumns r := by
  obtain ⟨s, hs, hrow⟩ := (Option.any_eq_true _ _).mp
    (show (exec (step ⟨.reject, 5⟩) Sys.init (enqueueSample ++ [claimSample 0 1 0])).any
      (fun s => s.db.rows.any fun r => r.state = .running) = true by decide +kernel)
  obtain ⟨r, hr, hstate⟩ := List.any_eq_true.mp hrow
  exact ⟨s, r, hs, hr, of_decide_eq_true hstate, leaseColumns_of_exec hs hr⟩

end Conduit
