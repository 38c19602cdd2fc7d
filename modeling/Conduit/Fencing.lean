import Conduit.Tokens

/-!
# Lease Fencing

When a reconciler requeues an expired job, or its holder gives the claim back, the token of
that claim leaves the row. From then on the token opens nothing: whatever the other parties
do, and however long the old holder's calls have been under way, every write it makes under
that token finds no row.

The reason is freshness. A token enters a row only when it is drawn, or when a worker that
drew it writes its claim. A token that has been in a row is neither new nor on its way in.

## Main results

* `step_ended`: a token that has left a row stays away from it.
* `fenced_of_endsClaim`: every later write of the old holder fails and changes nothing.
-/

namespace Conduit

open KeyedTable Transition

/-- The step is a `RequeueExpiredRunning` or a `ReleaseClaim`, and takes `token` off the
row under `k`. -/
structure EndsClaim (s : Sys) (a : Action) (s' : Sys) (k token : String) : Prop where
  action : (∃ dbNow limit locked, a = .requeue dbNow limit locked) ∨
    ∃ i dbNow, a = .worker i (.releaseClaim dbNow)
  before : ∃ r, s.db.find? k = some r ∧ r.leaseToken = some token
  after : ∃ r, s'.db.find? k = some r ∧ r.leaseToken = none

/-- The claim under `token` on the row under `k` is over: nothing that carries the token
finds the row. -/
structure Fenced (db : Jobs) (k token : String) : Prop where
  leaseToken : ∀ r, db.find? k = some r → r.leaseToken ≠ some token
  renewLease : ∀ now dbNow lease job, job.id = k → job.leaseToken = token →
    renewLease now dbNow lease job db = (db, .error .invalidTransition)
  releaseClaim : ∀ dbNow reason job, job.id = k → job.leaseToken = token →
    releaseClaim dbNow job reason db = (db, .error .invalidTransition)
  updateJob : ∀ now job, job.id = k → job.leaseToken = token →
    job.state = .completed ∨ job.state = .failed ∨ job.state = .pending ∨ job.state = .dead →
    updateJobExec now job db = (db, .error .invalidTransition)

/-- A write under a token that the row does not have finds nothing. -/
theorem fenced_of_leaseToken {db : Jobs} {k token : String} (hne : token ≠ "")
    (h : ∀ r, db.find? k = some r → r.leaseToken ≠ some token) : Fenced db k token := by
  have hclaim : ∀ job : Job, job.id = k → job.leaseToken = token →
      ∀ r, db.find? job.id = some r → holdsClaim job r = false := by
    rintro job rfl rfl r hfind
    simp [holdsClaim, h r hfind]
  refine ⟨h, ?_, ?_, ?_⟩
  · intro now dbNow lease job hid htoken
    rw [Conduit.renewLease, if_neg (htoken ▸ hne)]
    exact execUpdate_of_no_match _ (fun _ => holdsClaim_id) (hclaim job hid htoken)
  · intro dbNow reason job hid htoken
    exact execUpdate_of_no_match _ (fun _ => holdsClaim_id) (hclaim job hid htoken)
  · rintro now job rfl rfl hstate
    refine execUpdate_of_no_match _ (fun _ => updateMatches_id) ?_
    intro r hfind
    have hrunning : job.state ≠ .running := by
      rcases hstate with heq | heq | heq | heq <;> simp [heq]
    simp [updateMatches, hne, h r hfind, hrunning]

/-- The token is neither new, nor in the row, nor on its way into it. -/
structure Ended (as : List Action) (s : Sys) (k token : String) : Prop where
  drawn : token ∈ drawnTokens as
  row : ∀ r, s.db.find? k = some r → r.leaseToken ≠ some token
  claiming : ∀ i, (s.workers i).Claiming → (s.workers i).job.leaseToken ≠ token

/-- A token that has left a row stays away from it. -/
theorem step_ended {cfg : Config} {as : List Action} {s s' : Sys} {a : Action}
    {k token : String} (hinv : s.Inv) (hnodup : (drawnTokens (as ++ [a])).Nodup)
    (h : step cfg s a = some s') (hend : Ended as s k token) :
    Ended (as ++ [a]) s' k token := by
  refine ⟨?_, ?_, ?_⟩
  · rw [drawnTokens_concat]
    exact List.mem_append_left _ hend.drawn
  · intro r' hfind htoken
    rcases hinv.rowOrigin h hfind with ⟨r, hr, hchange⟩ | ⟨-, job, now, hfresh, rfl⟩
    · rcases leaseToken_of_rowChange hinv hchange htoken with
        hrow | ⟨i, call, rfl, hdrawn⟩ | ⟨i, now, rfl, hpc, hwrite⟩
      · exact hend.row r hr hrow
      · exact not_mem_of_drawn hnodup (List.mem_singleton.mpr hdrawn) hend.drawn
      · exact hend.claiming i (.inr hpc) hwrite.symm
    · rw [leaseToken_insertRow hfresh] at htoken
      cases htoken
  · intro i hclaim heq
    rcases step_claiming h hclaim with ⟨hold, htoken, -⟩ | ⟨now, lease, rand, rfl, htoken⟩
    · exact hend.claiming i hold (htoken.symm.trans heq)
    · refine not_mem_of_drawn hnodup ?_ hend.drawn
      exact List.mem_singleton.mpr (heq.symm.trans htoken)

/-- The step that ends a claim puts its token out of use. -/
theorem ended_of_endsClaim {cfg : Config} {as : List Action} {s s' : Sys} {a : Action}
    {k token : String} (hs : exec (step cfg) Sys.init as = some s)
    (hnodup : (drawnTokens (as ++ [a])).Nodup) (h : step cfg s a = some s')
    (hend : EndsClaim s a s' k token) : Ended (as ++ [a]) s' k token := by
  have hok := tokensOk_of_exec hs (nodup_of_append hnodup)
  obtain ⟨r, hfind, htoken⟩ := hend.before
  obtain ⟨r', hfind', hnone⟩ := hend.after
  have hdrawn := hok.rows k r token hfind htoken
  refine ⟨?_, ?_, ?_⟩
  · rw [drawnTokens_concat]
    exact List.mem_append_left _ hdrawn
  · intro r'' hfind''
    rw [hfind'] at hfind''
    obtain rfl := Option.some.inj hfind''
    rw [hnone]
    exact nofun
  · intro i hclaim heq
    rcases step_claiming h hclaim with ⟨hold, hsame, -⟩ | ⟨now, lease, rand, rfl, hnew⟩
    · refine hok.claiming i k r hold hfind ?_
      rw [htoken, ← heq, hsame]
    · refine not_mem_of_drawn hnodup ?_ hdrawn
      exact List.mem_singleton.mpr (heq.symm.trans hnew)

/-- **Fencing.** In a run with distinct tokens, once `RequeueExpiredRunning` or
`ReleaseClaim` has ended the claim under a token, the token never returns to the row, and
every renewal, release and update under it fails and changes nothing. -/
theorem fenced_of_endsClaim {cfg : Config} {pre post : List Action} {a : Action}
    {u v t : Sys} {k token : String} (hpre : exec (step cfg) Sys.init pre = some u)
    (ha : step cfg u a = some v) (hpost : exec (step cfg) v post = some t)
    (hnodup : (drawnTokens (pre ++ [a] ++ post)).Nodup) (hend : EndsClaim u a v k token) :
    Fenced t.db k token := by
  have hv : exec (step cfg) Sys.init (pre ++ [a]) = some v :=
    exec_concat_iff.mpr ⟨u, hpre, ha⟩
  have hended : Ended (pre ++ [a] ++ post) t k token := by
    refine exec_history (H := fun bs t => (drawnTokens (pre ++ [a] ++ bs)).Nodup →
      Ended (pre ++ [a] ++ bs) t k token) ?_ ?_ hpost hnodup
    · intro hnodup
      rw [List.append_nil] at hnodup ⊢
      exact ended_of_endsClaim hpre hnodup ha hend
    · intro bs s b s' hs ih hstep hnodup
      rw [← List.append_assoc] at hnodup ⊢
      have hs' : exec (step cfg) Sys.init (pre ++ [a] ++ bs) = some s :=
        exec_append_iff.mpr ⟨v, hv, hs⟩
      exact step_ended (inv_of_exec hs') hnodup hstep (ih (nodup_of_append hnodup))
  exact fenced_of_leaseToken (ne_empty_of_mem_drawnTokens hended.drawn) hended.row

/-- The sample job is claimed, requeued when its lease has expired, and claimed again: its
first token is fenced off. -/
theorem fenced_after_requeue :
    ∃ u v t, exec (step ⟨.reject, 5⟩) Sys.init (enqueueSample ++ [claimSample 0 1 0]) = some u ∧
      step ⟨.reject, 5⟩ u (.requeue (toTimestamp (300 * second)) 100 []) = some v ∧
      exec (step ⟨.reject, 5⟩) v [claimSample 1 2 (300 * second)] = some t ∧
      (t.db.find? sampleId).map Row.leaseToken = some (some (newLeaseToken (sampleRandom 2))) ∧
      Fenced t.db sampleId (newLeaseToken (sampleRandom 1)) := by
  obtain ⟨u, hu, h⟩ := (Option.any_eq_true _ _).mp
    (show (exec (step ⟨.reject, 5⟩) Sys.init (enqueueSample ++ [claimSample 0 1 0])).any
      (fun u =>
        (u.db.find? sampleId).any (fun r =>
          r.leaseToken = some (newLeaseToken (sampleRandom 1))) &&
        (step ⟨.reject, 5⟩ u (.requeue (toTimestamp (300 * second)) 100 [])).any fun v =>
          (v.db.find? sampleId).any (fun r => r.leaseToken = none) &&
          (exec (step ⟨.reject, 5⟩) v [claimSample 1 2 (300 * second)]).any fun t =>
            (t.db.find? sampleId).map Row.leaseToken =
              some (some (newLeaseToken (sampleRandom 2)))) = true by decide +kernel)
  simp only [Bool.and_eq_true, Option.any_eq_true, decide_eq_true_eq] at h
  obtain ⟨hbefore, v, hv, hafter, t, ht, htoken⟩ := h
  exact ⟨u, v, t, hu, hv, ht, htoken, fenced_of_endsClaim hu hv ht (by decide +kernel)
    ⟨.inl ⟨_, _, _, rfl⟩, hbefore, hafter⟩⟩

end Conduit
