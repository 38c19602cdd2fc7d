import Conduit.Rows

/-!
# Terminal States under Concurrency

`CanTransition` lets nothing leave `COMPLETED` or `DEAD`, but `UpdateJob` and `CancelJob`
apply it to a row read earlier and write in a statement of their own. Two of those writes
can land on a row that has become terminal in between.

* `CancelJob` names its row by id alone, so it turns a row that has completed since its
  read into a `DEAD` one.
* Cancelling leaves the lease token in the row. A worker that holds the token and has
  already passed its test still finds the row by it, and revives the cancelled job.

Every other write misses a terminal row: a completed row has no lease token, and the
single-statement operations ask for `PENDING` or `RUNNING`.

## Main results

* `keepsTerminal_iff`: a step changes a terminal state exactly when it is one of the two.
* `allSteps_keepsTerminal_iff`: terminal states are absorbing along a run exactly when no
  step of it is one of the two.
-/

namespace Conduit

open KeyedTable Transition

/-- The step leaves the state of every terminal row as it is. -/
def KeepsTerminal (s : Sys) (_ : Action) (s' : Sys) : Prop :=
  ∀ k r r', s.db.find? k = some r → r.state.terminal = true → s'.db.find? k = some r' →
    r'.state = r.state

/-- The action is the write of a cancel that finds its row completed. -/
def lateCancel (s : Sys) : Action → Bool
  | .cancel c (.write _) =>
    match s.cancels c with
    | .write id => (s.db.find? id).any fun r => r.state = .completed
    | _ => false
  | _ => false

/-- The action is a worker's write, to a state other than `DEAD`, that finds its row
cancelled with the worker's token still in it. -/
def revives (s : Sys) : Action → Bool
  | .worker i (.write _) =>
    (s.workers i).job.state ≠ .dead &&
      (s.db.find? (s.workers i).job.id).any fun r =>
        r.state = .dead ∧ r.leaseToken = some (s.workers i).job.leaseToken
  | _ => false

/-- The action is such a write to the row of job `k`. -/
def revivesRow (k : String) (s : Sys) : Action → Bool
  | .worker i (.write now) => (s.workers i).job.id = k && revives s (.worker i (.write now))
  | _ => false

/-- The action is a write that passed its test before the row became terminal. -/
def lateWrite (s : Sys) (a : Action) : Bool := lateCancel s a || revives s a

/-- A terminal state is `COMPLETED` or `DEAD`. -/
theorem terminal_iff {st : JobState} :
    st.terminal = true ↔ st = .completed ∨ st = .dead := by
  cases st <;> simp [JobState.terminal]

/-- A worker's write finds a terminal row only by the token a cancel left in it. -/
theorem dead_of_updateMatches {p : Phase} {job : Job} {r : Row} (hjob : p.JobOk job)
    (hr : RowOk r) (hterm : r.state.terminal = true) (hmatch : updateMatches job r = true) :
    r.state = .dead ∧ r.leaseToken = some job.leaseToken := by
  rcases token_of_updateMatches hjob hmatch with htoken | ⟨-, hpending, -⟩
  · rcases terminal_iff.mp hterm with hstate | hstate
    · rw [(hr.leaseColumns.completed hstate).1] at htoken
      cases htoken
    · exact ⟨hstate, htoken⟩
  · rw [hpending] at hterm
    cases hterm

theorem revivesRow_of_not_revives {s : Sys} {a : Action} (h : revives s a = false) (k : String) :
    revivesRow k s a = false := by
  unfold revivesRow
  split
  · rw [h, Bool.and_false]
  · rfl

/-- A `DEAD` row stays `DEAD` unless a worker revives it. -/
theorem dead_of_rowChange {s : Sys} {a : Action} {r r' : Row} (hinv : s.Inv) (hr : RowOk r)
    (hfind : s.db.find? r.id = some r) (hdead : r.state = .dead)
    (hrev : revivesRow r.id s a = false) (h : RowChange s r a r') : r'.state = .dead := by
  cases h with
  | same => exact hdead
  | cancelled => rfl
  | requeued hexp =>
      simp only [leaseExpired, decide_eq_true_eq] at hexp
      rw [hdead] at hexp
      cases hexp.1
  | claimed _ hstate =>
      rw [hdead] at hstate
      cases hstate
  | @updated i p now hpc hmatch =>
      have hterm : r.state.terminal = true := terminal_iff.mpr (.inr hdead)
      obtain ⟨-, htoken⟩ := dead_of_updateMatches (hinv.phase hpc) hr hterm hmatch
      rw [updateMatches_id hmatch] at hfind hrev
      by_contra hne
      simp only [revivesRow, revives, hfind, Option.any_some, hdead, htoken] at hrev
      simp only [and_self, decide_true, Bool.and_true, Bool.true_and, decide_eq_false_iff_not,
        not_not] at hrev
      exact hne hrev
  | renewed => exact hdead
  | released _ hmatch =>
      simp only [holdsClaim, decide_eq_true_eq] at hmatch
      rw [hdead] at hmatch
      cases hmatch.2.1

/-- A completed row stays completed unless a cancel hits it. -/
theorem completed_of_rowChange {s : Sys} {a : Action} {r r' : Row} (hinv : s.Inv)
    (hr : RowOk r) (hdone : r.state = .completed) (hnot : cancelsRow r.id s a = false)
    (h : RowChange s r a r') : r'.state = .completed := by
  cases h with
  | same => exact hdone
  | cancelled hcall => simp [cancelsRow, hcall] at hnot
  | requeued hexp =>
      simp only [leaseExpired, decide_eq_true_eq] at hexp
      rw [hdone] at hexp
      cases hexp.1
  | claimed _ hstate =>
      rw [hdone] at hstate
      cases hstate
  | @updated i p now hpc hmatch =>
      have hterm : r.state.terminal = true := terminal_iff.mpr (.inl hdone)
      obtain ⟨hdead, -⟩ := dead_of_updateMatches (hinv.phase hpc) hr hterm hmatch
      rw [hdone] at hdead
      cases hdead
  | renewed => exact hdone
  | released _ hmatch =>
      simp only [holdsClaim, decide_eq_true_eq] at hmatch
      rw [hdone] at hmatch
      cases hmatch.2.1

/-- A cancel that hits a completed row is late. -/
theorem not_cancelsRow_of_not_lateCancel {s : Sys} {a : Action} {r : Row}
    (hfind : s.db.find? r.id = some r) (hdone : r.state = .completed)
    (hlate : lateCancel s a = false) : cancelsRow r.id s a = false := by
  by_contra hcancels
  unfold cancelsRow at hcancels
  split at hcancels
  · rw [Bool.not_eq_false, decide_eq_true_eq] at hcancels
    simp [lateCancel, hcancels, hfind, hdone] at hlate
  · exact hcancels rfl

/-- A late cancel turns a completed row into a `DEAD` one. -/
theorem not_keepsTerminal_of_lateCancel {cfg : Config} {s s' : Sys} {a : Action}
    (h : step cfg s a = some s') (hlate : lateCancel s a = true) : ¬ KeepsTerminal s a s' := by
  intro hkeep
  unfold lateCancel at hlate
  split at hlate
  · rename_i c now
    split at hlate
    · rename_i id hcall
      obtain ⟨r, hfind, hdone⟩ := (Option.any_eq_true _ _).mp hlate
      have hstate : r.state = .completed := of_decide_eq_true hdone
      have hfind' := step_find? h hfind
      rw [← key_of_find? hfind] at hcall
      rw [rowAfter_cancel hcall] at hfind'
      have hdead := hkeep id r _ hfind (terminal_iff.mpr (.inl hstate)) hfind'
      rw [hstate] at hdead
      cases hdead
    · cases hlate
  · cases hlate

/-- A late write of a worker revives a cancelled row. -/
theorem not_keepsTerminal_of_revives {cfg : Config} {s s' : Sys} {a : Action}
    (h : step cfg s a = some s') (hrev : revives s a = true) : ¬ KeepsTerminal s a s' := by
  intro hkeep
  unfold revives at hrev
  split at hrev
  · rename_i i now
    simp only [Bool.and_eq_true, decide_eq_true_eq, Option.any_eq_true] at hrev
    obtain ⟨hne, r, hfind, hstate, htoken⟩ := hrev
    obtain ⟨p, hpc⟩ := (step_worker_self h).pc_of_write
    have hmatch : updateMatches (s.workers i).job r = true :=
      updateMatches_of_token hfind htoken
    have hfind' := step_find? h hfind
    rw [rowAfter_write hpc hmatch] at hfind'
    have hdead := hkeep _ r _ hfind (terminal_iff.mpr (.inr hstate)) hfind'
    rw [hstate] at hdead
    exact hne hdead
  · cases hrev

/-- A step keeps the terminal states exactly when it is not a late write. -/
theorem keepsTerminal_iff {cfg : Config} {s s' : Sys} {a : Action} (hok : s.Ok)
    (h : step cfg s a = some s') : KeepsTerminal s a s' ↔ lateWrite s a = false := by
  rw [lateWrite, Bool.or_eq_false_iff]
  constructor
  · intro hkeep
    constructor
    · by_contra hlate
      exact not_keepsTerminal_of_lateCancel h (Bool.eq_true_of_not_eq_false hlate) hkeep
    · by_contra hrev
      exact not_keepsTerminal_of_revives h (Bool.eq_true_of_not_eq_false hrev) hkeep
  · rintro ⟨hlate, hrev⟩ k r r' hfind hterm hfind'
    have hchange := rowChange_of_find? h hfind hfind'
    have hr := hok.2 k r hfind
    rcases terminal_iff.mp hterm with hstate | hstate <;> rw [hstate]
    · have hnot := not_cancelsRow_of_not_lateCancel (find?_id hfind) hstate hlate
      exact completed_of_rowChange hok.1 hr hstate hnot hchange
    · exact dead_of_rowChange hok.1 hr (find?_id hfind) hstate (revivesRow_of_not_revives hrev _)
        hchange

/-- **Terminal states are absorbing** along a run exactly when no step of the run is a late
write. -/
theorem allSteps_keepsTerminal_iff (cfg : Config) (as : List Action) :
    AllSteps (step cfg) KeepsTerminal Sys.init as ↔
      AllSteps (step cfg) (fun s a _ => lateWrite s a = false) Sys.init as :=
  allSteps_congr fun _ _ _ _ _ _ hpre h => keepsTerminal_iff (ok_of_exec hpre) h

/-- The worker in slot `0` has run the sample job and passed the test of its `COMPLETED`
write; a cancel has passed its own test meanwhile. -/
def cancelDuringCompletion : List Action :=
  enqueueSample ++ [claimSample 0 1 0] ++ runClaimed 0 0 ++
    [.worker 0 (.finish (.ok 0)), .worker 0 .read,
      .cancel 0 (.start sampleId), .cancel 0 .read]

/-- The sample job completes, and the cancel that was tested before then makes it `DEAD`. -/
theorem completed_then_cancelled :
    ∃ s s', exec (step ⟨.reject, 5⟩) Sys.init
        (cancelDuringCompletion ++ [.worker 0 (.write 0)]) = some s ∧
      step ⟨.reject, 5⟩ s (.cancel 0 (.write 0)) = some s' ∧
      (s.db.find? sampleId).map Row.state = some .completed ∧
      (s'.db.find? sampleId).map Row.state = some .dead := by
  obtain ⟨s, hs, hrow⟩ := (Option.any_eq_true _ _).mp
    (show (exec (step ⟨.reject, 5⟩) Sys.init
        (cancelDuringCompletion ++ [.worker 0 (.write 0)])).any (fun s =>
          decide ((s.db.find? sampleId).map Row.state = some .completed) &&
          (step ⟨.reject, 5⟩ s (.cancel 0 (.write 0))).any fun s' =>
            (s'.db.find? sampleId).map Row.state = some .dead) = true by decide +kernel)
  rw [Bool.and_eq_true, Option.any_eq_true] at hrow
  obtain ⟨hcompleted, s', hs', hdead⟩ := hrow
  exact ⟨s, s', hs, hs', of_decide_eq_true hcompleted, of_decide_eq_true hdead⟩

/-- In the other order the cancelled job comes back as completed. -/
example :
    (exec (step ⟨.reject, 5⟩) Sys.init (cancelDuringCompletion ++
      [.cancel 0 (.write 0), .worker 0 (.write 0)])).map
        (fun s => (s.db.find? sampleId).map Row.state) = some (some .completed) := by
  decide +kernel

end Conduit
