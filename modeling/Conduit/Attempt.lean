import Conduit.Tokens

/-!
# The Attempt Counter

`ClaimNextJob` counts an attempt in SQL, on the stored value. The Kafka path counts it on
the copy in the message, which was made when the job was enqueued, and `UpdateJob` writes
the result over the stored value. A message that arrives when the job is back in `PENDING`
after some attempts therefore sets the counter back to one.

Every other write of the counter is by the holder of the claim, whose copy has the counter
of the row (`HoldersOk`), so it changes nothing.

## Main results

* `holdersOk_of_exec`: the copy of a claim's holder has the counter of the row.
* `allSteps_attemptsKept_iff`: the counter never goes down along a run exactly when no Kafka
  claim of it meets a row with more attempts than its copy.
-/

namespace Conduit

open KeyedTable Transition

/-- The step leaves no row with fewer attempts. -/
def AttemptsKept (s : Sys) (_ : Action) (s' : Sys) : Prop :=
  ∀ k r r', s.db.find? k = some r → s'.db.find? k = some r' → r.attempt ≤ r'.attempt

/-- The action is the write of a Kafka claim that finds its row with more attempts than the
copy. -/
def staleClaim (s : Sys) : Action → Bool
  | .worker i (.write _) =>
    (s.workers i).pc = .write .claim &&
      (s.db.find? (s.workers i).job.id).any fun r =>
        updateMatches (s.workers i).job r && (s.workers i).job.attempt < r.attempt
  | _ => false

/-! ### Holders -/

/-- A worker whose token is in a row has the row's attempt counter. -/
def Sys.HoldersOk (s : Sys) : Prop :=
  ∀ i k r, (s.workers i).job.leaseToken ≠ "" → s.db.find? k = some r →
    r.leaseToken = some (s.workers i).job.leaseToken → r.attempt = (s.workers i).job.attempt

/-- The counter of a row with a token: as before under the same token, counted up by
`ClaimNextJob` under a new one, or that of a worker that writes under its own. -/
theorem attempt_of_rowChange {s : Sys} {a : Action} {r r' : Row} {token : String}
    (hinv : s.Inv) (h : RowChange s r a r') (htoken : r'.leaseToken = some token) :
    (r.leaseToken = some token ∧ r'.attempt = r.attempt) ∨
      (∃ i call, a = .claimNext i call ∧ selectDue call s.db = some r ∧
        token = newLeaseToken call.rand ∧ r'.attempt = r.attempt + 1) ∨
      ∃ i now, a = .worker i (.write now) ∧ token = (s.workers i).job.leaseToken ∧
        r'.attempt = (s.workers i).job.attempt := by
  cases h with
  | same => exact .inl ⟨htoken, rfl⟩
  | cancelled => exact .inl ⟨htoken, rfl⟩
  | requeued => cases htoken
  | @claimed i call hsel =>
      exact .inr (.inl ⟨i, call, rfl, hsel, (Option.some.inj htoken).symm, rfl⟩)
  | @updated i p now hpc hmatch =>
      refine .inr (.inr ⟨i, now, rfl, ?_, rfl⟩)
      rcases leaseToken_updateEdit now (hinv.phase hpc).leaseToken_ne r with hnone | hsome
      · rw [hnone] at htoken
        cases htoken
      · rw [hsome] at htoken
        exact (Option.some.inj htoken).symm
  | renewed => exact .inl ⟨htoken, rfl⟩
  | released => cases htoken

/-- A worker that carries an old token after a step carried it before, with the same
counter. -/
theorem worker_of_old_token {cfg : Config} {as : List Action} {s s' : Sys} {a : Action}
    (hinv : s.Inv) (hnodup : (drawnTokens (as ++ [a])).Nodup) (h : step cfg s a = some s')
    {i : ℕ} (hold : (s'.workers i).job.leaseToken ∈ drawnTokens as) :
    (s'.workers i).job.leaseToken = (s.workers i).job.leaseToken ∧
      (s'.workers i).job.attempt = (s.workers i).job.attempt := by
  cases step_workerChange h i with
  | same heq => exact ⟨by rw [heq], by rw [heq]⟩
  | claimed _ _ heq =>
      rw [heq] at hold
      exact absurd hold (not_mem_of_drawn hnodup (List.mem_singleton.mpr rfl))
  | delivered _ hjob heq =>
      rw [heq] at hold
      exact absurd (hinv.kafka _ hjob).leaseToken (ne_empty_of_mem_drawnTokens hold)
  | moved hmove =>
      rcases hmove.keeps_claim with hkept | ⟨now, lease, rand, rfl, -, heq⟩
      · exact hkept
      · rw [heq] at hold
        exact absurd hold (not_mem_of_drawn hnodup (List.mem_singleton.mpr rfl))

/-- Every step keeps the counters of holders equal to those of their rows. -/
theorem step_holdersOk {cfg : Config} {as : List Action} {s s' : Sys} {a : Action}
    (hinv : s.Inv) (htokens : TokensOk as s) (hnodup : (drawnTokens (as ++ [a])).Nodup)
    (hold : s.HoldersOk) (h : step cfg s a = some s') : s'.HoldersOk := by
  intro i k r' hne hfind htoken
  rcases hinv.rowOrigin h hfind with ⟨r, hr, hchange⟩ | ⟨-, job, now, hfresh, rfl⟩
  · rcases attempt_of_rowChange hinv hchange htoken with
      ⟨hrow, hattempt⟩ | ⟨j, call, rfl, hsel, hnew, hattempt⟩ | ⟨j, now, rfl, hown, hattempt⟩
    · have hdrawn := htokens.rows k r _ hr hrow
      obtain ⟨hsame, hcounter⟩ := worker_of_old_token hinv hnodup h hdrawn
      rw [hsame] at hne hrow
      rw [hattempt, hcounter]
      exact hold i k r hne hr hrow
    · have hdrawn : (s'.workers i).job.leaseToken ∈ (Action.claimNext j call).drawn :=
        List.mem_singleton.mpr hnew
      cases step_workerChange h i with
      | same heq =>
          rw [heq] at hne hdrawn
          exact absurd (htokens.workers i hne) (not_mem_of_drawn hnodup hdrawn)
      | claimed _ hsel' heq =>
          rw [hsel] at hsel'
          obtain rfl := Option.some.inj hsel'
          rw [hattempt, heq]
          rfl
    · have hnew : (s.workers j).job.leaseToken ≠ "" := hown ▸ hne
      have hdrawn : (s'.workers i).job.leaseToken ∈ drawnTokens as := by
        rw [hown]
        exact htokens.workers j hnew
      obtain ⟨hsame, hcounter⟩ := worker_of_old_token hinv hnodup h hdrawn
      obtain rfl : j = i := by
        by_contra hji
        exact htokens.distinct j i hji hnew (hown.symm.trans hsame)
      rw [hattempt, hcounter]
  · rw [leaseToken_insertRow hfresh] at htoken
    cases htoken

/-- In every run with distinct tokens, the copy of a claim's holder has the counter of the
row. -/
theorem holdersOk_of_exec {cfg : Config} {as : List Action} {s : Sys}
    (h : exec (step cfg) Sys.init as = some s) (hnodup : (drawnTokens as).Nodup) :
    s.HoldersOk := by
  refine exec_history (H := fun as s => (drawnTokens as).Nodup → s.HoldersOk) ?_ ?_ h hnodup
  · intro _ i k r hne
    exact absurd rfl hne
  · intro as u a v hu hold hstep hnodup
    have hnodup' := nodup_of_append hnodup
    exact step_holdersOk (inv_of_exec hu) (tokensOk_of_exec hu hnodup') hnodup (hold hnodup')
      hstep

/-! ### The counter -/

/-- A change that is not a stale claim does not lower the counter. -/
theorem attempt_le_of_rowChange {s : Sys} {a : Action} {r r' : Row} (hinv : s.Inv)
    (hold : s.HoldersOk) (hfind : s.db.find? r.id = some r) (hstale : staleClaim s a = false)
    (h : RowChange s r a r') : r.attempt ≤ r'.attempt := by
  cases h with
  | same => exact le_refl _
  | cancelled => exact le_refl _
  | requeued => exact le_refl _
  | claimed => exact Int.le_add_one (le_refl _)
  | @updated i p now hpc hmatch =>
      have hjob := hinv.phase hpc
      have hid := updateMatches_id hmatch
      rcases token_of_updateMatches hjob hmatch with hrow | ⟨rfl, -⟩
      · exact le_of_eq (hold i _ r hjob.leaseToken_ne hfind hrow)
      · rw [hid] at hfind
        simp only [staleClaim, hpc, hfind, Option.any_some, hmatch, decide_true,
          Bool.true_and, decide_eq_false_iff_not, not_lt] at hstale
        exact hstale
  | renewed => exact le_refl _
  | released => exact le_refl _

/-- A step keeps the counters exactly when it is not a stale claim. -/
theorem attemptsKept_iff {cfg : Config} {s s' : Sys} {a : Action} (hinv : s.Inv)
    (hold : s.HoldersOk) (h : step cfg s a = some s') :
    AttemptsKept s a s' ↔ staleClaim s a = false := by
  constructor
  · intro hkept
    by_contra hstale
    have hstale := Bool.eq_true_of_not_eq_false hstale
    unfold staleClaim at hstale
    split at hstale
    · simp only [Bool.and_eq_true, decide_eq_true_eq, Option.any_eq_true] at hstale
      obtain ⟨hpc, r, hfind, hmatch, hlt⟩ := hstale
      have hfind' := step_find? h hfind
      rw [rowAfter_write hpc hmatch] at hfind'
      exact not_lt.mpr (hkept _ r _ hfind hfind') hlt
    · cases hstale
  · intro hstale k r r' hfind hfind'
    have hchange := rowChange_of_find? h hfind hfind'
    exact attempt_le_of_rowChange hinv hold (find?_id hfind) hstale hchange

/-- **The attempt counter never goes down** along a run with distinct tokens, `NULL` text
read as the empty string, exactly when no step of the run is a stale claim. -/
theorem allSteps_attemptsKept_iff {n : ℤ} {as : List Action}
    (hnodup : (drawnTokens as).Nodup) :
    AllSteps (step ⟨.empty, n⟩) AttemptsKept Sys.init as ↔
      AllSteps (step ⟨.empty, n⟩) (fun s a _ => staleClaim s a = false) Sys.init as := by
  refine allSteps_congr ?_
  rintro pre a post u v rfl hpre h
  exact attemptsKept_iff (inv_of_exec hpre) (holdersOk_of_exec hpre (nodup_of_append hnodup)) h

/-- The worker in slot `i` claims the sample job at `now`, its handler fails, and the job is
back in `PENDING`, due a second later. -/
def failOnce (i : ℕ) (b : UInt8) (now : Time) : List Action :=
  claimSample i b now :: runClaimed i now ++
    workerActs i [.finish (.error ⟨"connection refused", false⟩ now second), .read, .write now,
      .read, .write now, .unlock]

/-- The worker in slot `i` takes a delivered copy of the sample job to the write of its
claim. -/
def claimDelivered (i : ℕ) (b : UInt8) (now : Time) : List Action :=
  .deliver i 0 ::
    workerActs i [.begin, .checkDue now, .allow true, .acquire true,
      .prepare now (300 * second) (sampleRandom b), .read]

/-- A job that fails once and is then claimed for a second attempt keeps its counter. -/
theorem attemptsKept_failOnce :
    AllSteps (step ⟨.empty, 5⟩) AttemptsKept Sys.init
      (enqueueSample ++ failOnce 0 1 0 ++ [claimSample 1 2 (10 * second)]) := by
  refine (allSteps_attemptsKept_iff (by decide +kernel)).mpr ?_
  have hcheck : checkSteps (step ⟨.empty, 5⟩) (fun s a => !staleClaim s a) Sys.init
      (enqueueSample ++ failOnce 0 1 0 ++ [claimSample 1 2 (10 * second)]) = true := by
    decide +kernel
  exact allSteps_of_checkSteps_not hcheck

/-- The sample job has failed twice when its Kafka message arrives: the claim sets its counter
from two back to one. -/
theorem attempt_set_back :
    ∃ s s', exec (step ⟨.empty, 5⟩) Sys.init (enqueueSample ++ failOnce 0 1 0 ++
        failOnce 1 2 (10 * second) ++ claimDelivered 2 3 (20 * second)) = some s ∧
      step ⟨.empty, 5⟩ s (.worker 2 (.write (20 * second))) = some s' ∧
      (s.db.find? sampleId).map Row.attempt = some 2 ∧
      (s'.db.find? sampleId).map Row.attempt = some 1 := by
  obtain ⟨s, hs, h⟩ := (Option.any_eq_true _ _).mp
    (show (exec (step ⟨.empty, 5⟩) Sys.init (enqueueSample ++ failOnce 0 1 0 ++
        failOnce 1 2 (10 * second) ++ claimDelivered 2 3 (20 * second))).any (fun s =>
          decide ((s.db.find? sampleId).map Row.attempt = some 2) &&
          (step ⟨.empty, 5⟩ s (.worker 2 (.write (20 * second)))).any fun s' =>
            (s'.db.find? sampleId).map Row.attempt = some 1) = true by decide +kernel)
  simp only [Bool.and_eq_true, Option.any_eq_true, decide_eq_true_eq] at h
  obtain ⟨hbefore, s', hs', hafter⟩ := h
  exact ⟨s, s', hs, hs', hbefore, hafter⟩

end Conduit
