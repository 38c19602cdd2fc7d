import Conduit.Rows

/-!
# What a `NULL` Text Column Breaks

`CreateJob` stores an empty idempotency key and an empty lease token as SQL `NULL`, and
`scanJob` reads both columns into plain Go strings, which pgx v5 refuses. Two contracts of
the store depend on that scan.

A created job can be read back only when both columns are present, and `Enqueue` never has
a lease token to store. `ClaimNextJob` scans the row it has just claimed, after the
statement has taken effect: it sets the lease token, so only the idempotency key decides
whether the claim is reported or lost.

## Main results

* `getJob_createJob_iff`: the round trip of a job through the table, exactly.
* `claimNextJob_error_iff`: a failed claim leaves the table alone, exactly.
-/

namespace Conduit

open KeyedTable Transition

/-! ### The round trip of a job -/

/-- **The round trip.** After `CreateJob` has stored a job that `Enqueue` prepared, `GetJob`
returns it, times cut to microseconds, exactly when neither the idempotency key nor the
lease token is empty. -/
theorem getJob_createJob_iff {job : Job} {rand : RandomBytes} {now createNow : Time}
    {t t' : Jobs} (h : createJob createNow (prepareJob rand now job) t = .ok t') :
    getJob .reject (prepareJob rand now job).id t' =
        .ok (storedJob createNow (prepareJob rand now job)) ↔
      job.idempotencyKey ≠ "" ∧ job.leaseToken ≠ "" := by
  have hfind : t'.find? (prepareJob rand now job).id =
      some (insertRow createNow (prepareJob rand now job)) := by
    rw [find?_createJob h, if_pos rfl]
  rw [getJob_eq_ok_iff]
  constructor
  · rintro ⟨r, hr, -, hnulls | htexts⟩
    · cases hnulls
    · rw [hfind] at hr
      cases hr
      exact (textsPresent_insertRow createNow (prepareJob rand now job)).mp htexts
  · intro hne
    exact ⟨_, hfind, (toJob_insertRow _ _).symm,
      .inr ((textsPresent_insertRow createNow (prepareJob rand now job)).mpr hne)⟩

/-- The sample job with a lease token of its own, which no API request carries. -/
def leasedSample : Job := { requestJob sampleRequest with leaseToken := "t" }

/-- A job with a key and a lease token makes the round trip. -/
theorem getJob_createJob_leased :
    ∃ t', createJob 0 (prepareJob (sampleRandom 0) 0 leasedSample) empty = .ok t' ∧
      getJob .reject (prepareJob (sampleRandom 0) 0 leasedSample).id t' =
        .ok (storedJob 0 (prepareJob (sampleRandom 0) 0 leasedSample)) := by
  cases h : createJob 0 (prepareJob (sampleRandom 0) 0 leasedSample) empty with
  | error e => cases h
  | ok t' => exact ⟨t', rfl, (getJob_createJob_iff h).mpr (by decide)⟩

/-- The sample request, prepared by `Enqueue` and stored in an empty table, cannot be read
back: its lease token is `NULL`. -/
theorem getJob_createJob_request :
    ∃ t', createJob 0 (prepareJob (sampleRandom 0) 0 (requestJob sampleRequest)) empty = .ok t' ∧
      getJob .reject (prepareJob (sampleRandom 0) 0 (requestJob sampleRequest)).id t' =
        .error (.nullScan "lease_token") :=
  ⟨_, rfl, by decide +kernel⟩

/-! ### The scan after a claim -/

/-- The claimed row of a reachable table scans exactly when it has an idempotency key. -/
theorem textsPresent_claimEdit_iff {r : Row} (hr : RowOk r) (call : ClaimCall) :
    ((claimEdit call).apply r).TextsPresent ↔ r.idempotencyKey ≠ none := by
  have htexts := hr.texts
  simp only [Row.TextsPresent, claimEdit, Option.isSome_some, htexts, and_true,
    Option.isSome_iff_ne_none]

/-- A claim that selects a row changes the table. -/
theorem claimNextJob_ne_self {nulls : NullText} {call : ClaimCall} {t : Jobs} {r : Row}
    (hsel : selectDue call t = some r) : (claimNextJob nulls call t).1 ≠ t := by
  obtain ⟨hfind, hstate, -⟩ := selectDue_spec hsel
  intro heq
  have hrow : (claimNextJob nulls call t).1.find? r.id = some ((claimEdit call).apply r) := by
    simp only [claimNextJob, hsel]
    exact find?_claimEdit hfind call
  rw [heq, hfind] at hrow
  have hrunning : r.state = .running := congrArg Row.state (Option.some.inj hrow)
  rw [hstate] at hrunning
  cases hrunning

/-- **Failed claims.** In a reachable table, a call of `ClaimNextJob` that returns an error
leaves the table exactly as it was if and only if the call fails before its statement, or
selects nothing, or selects a row with an idempotency key. -/
theorem claimNextJob_error_iff {cfg : Config} {as : List Action} {s : Sys}
    (h : exec (step cfg) Sys.init as = some s) (fault : Option ClaimFault)
    (call : ClaimCall) :
    ((∃ e, (claimNextJobCall .reject fault call s.db).2 = .error e) →
        (claimNextJobCall .reject fault call s.db).1 = s.db) ↔
      (fault = none → ∀ r, selectDue call s.db = some r → r.idempotencyKey ≠ none) := by
  match fault with
  | some .leaseToken => simp [claimNextJobCall]
  | some .statement => simp [claimNextJobCall]
  | none =>
      simp only [claimNextJobCall, forall_const]
      cases hsel : selectDue call s.db with
      | none => simp [claimNextJob, hsel]
      | some r =>
          obtain ⟨hfind, -, -⟩ := selectDue_spec hsel
          have htexts := textsPresent_claimEdit_iff ((ok_of_exec h).2 r.id r hfind) call
          have hscan : (claimNextJob .reject call s.db).2 =
              scanJob .reject ((claimEdit call).apply r) := by
            simp only [claimNextJob, hsel]
          rw [hscan]
          constructor
          · rintro hkeep _ ⟨⟩ hkey
            refine claimNextJob_ne_self hsel (hkeep ?_)
            cases hres : scanJob .reject ((claimEdit call).apply r) with
            | error e => exact ⟨e, rfl⟩
            | ok job =>
                obtain ⟨-, hnulls | hpresent⟩ := scanJob_eq_ok_iff.mp hres
                · cases hnulls
                · exact absurd hkey (htexts.mp hpresent)
          · rintro hkey ⟨e, he⟩
            have hok : scanJob .reject ((claimEdit call).apply r) = .ok _ :=
              scanJob_eq_ok_iff.mpr ⟨rfl, .inr (htexts.mpr (hkey r rfl))⟩
            rw [he] at hok
            cases hok

/-- The sample job has a key, so no claim in its table can be lost. -/
theorem claimNextJob_error_keyed :
    ∃ s, exec (step ⟨.reject, 5⟩) Sys.init enqueueSample = some s ∧
      ∀ call, (∃ e, (claimNextJobCall .reject none call s.db).2 = .error e) →
        (claimNextJobCall .reject none call s.db).1 = s.db := by
  obtain ⟨s, hs, hkeys⟩ := (Option.any_eq_true _ _).mp
    (show (exec (step ⟨.reject, 5⟩) Sys.init enqueueSample).any
      (fun s => s.db.rows.all fun r => r.idempotencyKey ≠ none) = true by decide +kernel)
  refine ⟨s, hs, fun call => (claimNextJob_error_iff hs none call).mpr ?_⟩
  intro _ r hsel
  obtain ⟨hfind, -, -⟩ := selectDue_spec hsel
  exact of_decide_eq_true (List.all_eq_true.mp hkeys r (mem_of_find? hfind))

/-- A request without idempotency key. -/
def keylessRequest : EnqueueRequest := { sampleRequest with idempotencyKey := "" }

/-- A due job without idempotency key: the claim returns an error, and the row is `RUNNING`
with its first attempt counted. -/
theorem claimNextJob_error_keyless :
    ∃ s, exec (step ⟨.reject, 5⟩) Sys.init
        [.enqueue 0 (.start keylessRequest), .enqueue 0 (.insert (sampleRandom 0) 0 0)] =
          some s ∧
      (s.db.find? sampleId).map (fun r => (r.state, r.attempt)) = some (.pending, 0) ∧
      (claimNextJobCall .reject none ⟨0, 0, 5 * 60 * second, sampleRandom 1, []⟩ s.db).2 =
        .error (.nullScan "idempotency_key") ∧
      ((claimNextJobCall .reject none
          ⟨0, 0, 5 * 60 * second, sampleRandom 1, []⟩ s.db).1.find? sampleId).map
        (fun r => (r.state, r.attempt)) = some (.running, 1) :=
  ⟨_, rfl, by decide +kernel, by decide +kernel, by decide +kernel⟩

end Conduit
