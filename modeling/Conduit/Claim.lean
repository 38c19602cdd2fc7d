import Conduit.Tokens

/-!
# One Winner per Claim

Two paths claim a job. A reconciler's `ClaimNextJob` selects and takes a row in one
statement. A worker with a Kafka-delivered copy reads the row, and then writes `RUNNING` on
the condition that the row is `PENDING` without a token. Messages may be delivered late and
more than once, so any number of claims can be under way for one row.

A claim is told that it succeeded only if it found the row `PENDING`, and leaves it
`RUNNING` under its own token. So the next success needs the row to have become `PENDING`
again, and as long as the row runs, it runs under the token of the last success.

## Main results

* `Wins.spec`: what a successful claim finds and leaves.
* `one_winner`: at most one success between two entries into `PENDING`, and a running row
  belongs to it.
-/

namespace Conduit

open KeyedTable Transition

/-- The action tells a claimant that its claim of row `k` under `token` succeeded. -/
def Wins (cfg : Config) (s : Sys) (a : Action) (k token : String) : Prop :=
  match a with
  | .claimNext _ call =>
    ∃ job, (claimNextJob cfg.nulls call s.db).2 = .ok job ∧ job.id = k ∧
      token = newLeaseToken call.rand
  | .worker i (.write now) =>
    (s.workers i).pc = .write .claim ∧
      (updateJobExec now (s.workers i).job s.db).2 = .ok () ∧
      (s.workers i).job.id = k ∧ token = (s.workers i).job.leaseToken
  | _ => False

/-- The row under `k` is `PENDING`. -/
def Sys.IsPending (s : Sys) (k : String) : Prop :=
  ∃ r, s.db.find? k = some r ∧ r.state = .pending

/-- The row under `k` is `RUNNING` under `token`. -/
def Sys.RunsUnder (s : Sys) (k token : String) : Prop :=
  ∃ r, s.db.find? k = some r ∧ r.state = .running ∧ r.leaseToken = some token

instance (s : Sys) (k token : String) : Decidable (s.RunsUnder k token) :=
  decidable_of_iff
    ((s.db.find? k).any (fun r => r.state = .running ∧ r.leaseToken = some token) = true)
    (by simp [Sys.RunsUnder, Option.any_eq_true])

/-- The step makes the row under `k` enter `PENDING`, by inserting it or by changing its
state. -/
def EntersPending (k : String) (s : Sys) (_ : Action) (s' : Sys) : Prop :=
  ¬ s.IsPending k ∧ s'.IsPending k

/-! ### Successful claims -/

/-- Only `ClaimNextJob` and the `UPDATE` of a worker claim a row. -/
theorem Wins.action {cfg : Config} {s : Sys} {a : Action} {k token : String}
    (h : Wins cfg s a k token) :
    (∃ i call, a = .claimNext i call) ∨ ∃ i now, a = .worker i (.write now) := by
  unfold Wins at h
  split at h
  · exact .inl ⟨_, _, rfl⟩
  · exact .inr ⟨_, _, rfl⟩
  · exact h.elim

/-- A worker's claim leaves the row running under its token. -/
theorem runsUnder_updateEdit {job : Job} (hjob : Phase.claim.JobOk job) (now : Time)
    (r : Row) :
    ((updateEdit now job).apply r).state = .running ∧
      ((updateEdit now job).apply r).leaseToken = some job.leaseToken := by
  refine ⟨hjob.1.state, ?_⟩
  simp only [updateEdit, hjob.1.state, nullableString_of_ne hjob.1.leaseToken]
  simp

/-- A successful `ClaimNextJob` finds its row `PENDING` and leaves it running. -/
theorem claimNextJob_wins {cfg : Config} {s s' : Sys} {i : ℕ} {call : ClaimCall}
    {k token : String} (h : step cfg s (.claimNext i call) = some s')
    (hwin : Wins cfg s (.claimNext i call) k token) :
    s.IsPending k ∧ s'.RunsUnder k token := by
  obtain ⟨job, hok, rfl, rfl⟩ := hwin
  rcases claimNextJob_spec cfg.nulls call s.db with
    ⟨-, heq⟩ | ⟨r, hsel, hfind, hstate, heq⟩
  · rw [heq] at hok
    cases hok
  · rw [heq] at hok
    obtain ⟨rfl, -⟩ := scanJob_eq_ok_iff.mp hok
    have hfind' := step_find? h hfind
    rw [rowAfter_claimNext hsel] at hfind'
    exact ⟨⟨r, hfind, hstate⟩, _, hfind', rfl, rfl⟩

/-- A worker's successful claim finds its row `PENDING` and leaves it running: its token is
new, so it cannot have found the row by it. -/
theorem write_wins {cfg : Config} {as : List Action} {s s' : Sys} {i : ℕ} {now : Time}
    {k token : String} (hinv : s.Inv) (htokens : TokensOk as s)
    (h : step cfg s (.worker i (.write now)) = some s')
    (hwin : Wins cfg s (.worker i (.write now)) k token) :
    s.IsPending k ∧ s'.RunsUnder k token := by
  obtain ⟨hpc, hok, rfl, rfl⟩ := hwin
  obtain ⟨r, hfind, hmatch⟩ := (execUpdate_ok_iff fun _ => updateMatches_id).mp hok
  have hjob := hinv.phase hpc
  have hfind' := step_find? h hfind
  rw [rowAfter_write hpc hmatch] at hfind'
  obtain ⟨hrunning, htoken⟩ := runsUnder_updateEdit hjob now r
  refine ⟨?_, _, hfind', hrunning, htoken⟩
  rcases token_of_updateMatches hjob hmatch with hrow | ⟨-, hpending, -⟩
  · exact absurd hrow (htokens.claiming i _ r (.inr hpc) hfind)
  · exact ⟨r, hfind, hpending⟩

/-- **A successful claim** finds its row `PENDING` and leaves it running under its token. -/
theorem Wins.spec {cfg : Config} {as : List Action} {s s' : Sys} {a : Action}
    {k token : String} (hinv : s.Inv) (htokens : TokensOk as s) (h : step cfg s a = some s')
    (hwin : Wins cfg s a k token) : s.IsPending k ∧ s'.RunsUnder k token := by
  rcases hwin.action with ⟨i, call, rfl⟩ | ⟨i, now, rfl⟩
  · exact claimNextJob_wins h hwin
  · exact write_wins hinv htokens h hwin

/-- A running row is not `PENDING`. -/
theorem Sys.RunsUnder.not_isPending {s : Sys} {k token : String} (h : s.RunsUnder k token) :
    ¬ s.IsPending k := by
  rintro ⟨r, hfind, hpending⟩
  obtain ⟨r', hfind', hrunning, -⟩ := h
  rw [hfind] at hfind'
  obtain rfl := Option.some.inj hfind'
  rw [hpending] at hrunning
  cases hrunning

/-! ### Running rows -/

/-- Where a running row comes from, when `NULL` text is read as the empty string: it ran
before the step under the same token, or the step is a successful claim. -/
theorem runsUnder_of_rowChange {n : ℤ} {s : Sys} {a : Action} {r r' : Row} (hinv : s.Inv)
    (hfind : s.db.find? r.id = some r) (h : RowChange s r a r') (hrunning : r'.state = .running) :
    (r.state = .running ∧ r'.leaseToken = r.leaseToken) ∨
      ∃ token, Wins ⟨.empty, n⟩ s a r.id token ∧ r'.leaseToken = some token := by
  cases h with
  | same => exact .inl ⟨hrunning, rfl⟩
  | cancelled => cases hrunning
  | requeued =>
      simp only [requeueEdit] at hrunning
      split at hrunning <;> cases hrunning
  | @claimed i call hsel =>
      refine .inr ⟨_, ⟨((claimEdit call).apply r).toJob, ?_, rfl, rfl⟩, rfl⟩
      simp only [claimNextJob, hsel, scanJob_empty]
  | @updated i p now hpc hmatch =>
      have hjob := hinv.phase hpc
      have hid := updateMatches_id hmatch
      have hstate : (s.workers i).job.state = .running := hrunning
      obtain rfl := hjob.eq_claim hstate
      refine .inr ⟨_, ⟨hpc, ?_, hid.symm, rfl⟩, (runsUnder_updateEdit hjob now r).2⟩
      exact execUpdate_of_match _ (fun _ => updateMatches_id) (hid ▸ hfind) hmatch
  | renewed hmatch =>
      simp only [holdsClaim, decide_eq_true_eq] at hmatch
      exact .inl ⟨hmatch.2.1, rfl⟩
  | released => cases hrunning

/-- The last successful claim of the run `as` on the row under `k`, since which the row has
not entered `PENDING`, was made under `token`. -/
def LastWin (cfg : Config) (as : List Action) (k token : String) : Prop :=
  ∃ pre a post u v, as = pre ++ a :: post ∧ exec (step cfg) Sys.init pre = some u ∧
    step cfg u a = some v ∧ Wins cfg u a k token ∧
    AllSteps (step cfg) (fun s b s' => ¬ EntersPending k s b s') v post

/-- A claim that has just succeeded is the last one. -/
theorem Wins.lastWin {cfg : Config} {as : List Action} {a : Action} {s s' : Sys}
    {k token : String} (hwin : Wins cfg s a k token)
    (hs : exec (step cfg) Sys.init as = some s) (h : step cfg s a = some s') :
    LastWin cfg (as ++ [a]) k token := by
  refine ⟨as, a, [], s, s', rfl, hs, h, hwin, ?_⟩
  intro pre b post x y heq
  cases pre <;> cases heq

/-- The last successful claim stays the last one while the row does not become `PENDING`. -/
theorem LastWin.concat {cfg : Config} {as : List Action} {a : Action} {s s' : Sys}
    {k token : String} (hlast : LastWin cfg as k token)
    (hs : exec (step cfg) Sys.init as = some s) (h : step cfg s a = some s')
    (hnot : ¬ s'.IsPending k) : LastWin cfg (as ++ [a]) k token := by
  obtain ⟨pre, b, post, u, v, rfl, hu, hb, hwin, hall⟩ := hlast
  have hv : exec (step cfg) Sys.init (pre ++ [b]) = some v := exec_concat_iff.mpr ⟨u, hu, hb⟩
  have hpost : exec (step cfg) v post = some s := by
    refine exec_drop ?_ hv
    rw [List.append_assoc, List.singleton_append]
    exact hs
  refine ⟨pre, b, post ++ [a], u, v, ?_, hu, hb, hwin, ?_⟩
  · rw [List.append_assoc, List.cons_append]
  · exact hall.concat hpost h fun henters => hnot henters.2

/-- A running row runs under the token of the last successful claim. -/
theorem lastWin_of_exec {n : ℤ} {as : List Action} {s : Sys}
    (h : exec (step ⟨.empty, n⟩) Sys.init as = some s) (k : String) (r : Row)
    (hfind : s.db.find? k = some r) (hrunning : r.state = .running) :
    ∃ token, LastWin ⟨.empty, n⟩ as k token ∧ r.leaseToken = some token := by
  refine exec_history (H := fun as s => ∀ r, s.db.find? k = some r → r.state = .running →
    ∃ token, LastWin ⟨.empty, n⟩ as k token ∧ r.leaseToken = some token) ?_ ?_ h r hfind hrunning
  · intro r hfind
    rw [Sys.init, find?_empty] at hfind
    cases hfind
  · intro as s a s' hs ih hstep r' hfind' hrunning'
    have hinv := inv_of_exec hs
    rcases hinv.rowOrigin hstep hfind' with ⟨r, hfind, hchange⟩ | ⟨-, job, now, hfresh, rfl⟩
    · rcases runsUnder_of_rowChange (n := n) hinv (find?_id hfind) hchange hrunning' with
        ⟨hrunning, htoken⟩ | ⟨token, hwin, htoken⟩
      · obtain ⟨token, hlast, htoken'⟩ := ih r hfind hrunning
        have hruns : s'.RunsUnder k token := ⟨r', hfind', hrunning', htoken.trans htoken'⟩
        exact ⟨token, hlast.concat hs hstep hruns.not_isPending, htoken.trans htoken'⟩
      · rw [key_of_find? hfind] at hwin
        exact ⟨token, hwin.lastWin hs hstep, htoken⟩
    · have hpending : job.state = .running := hrunning'
      rw [hfresh.state] at hpending
      cases hpending

/-- **One winner.** Take any run with distinct tokens, `NULL` text read as the empty string.
Between two successful claims of a row there is a step at which the row enters `PENDING`, and
while the row is `RUNNING` its token is that of the last successful claim, since which it has
not entered `PENDING`. -/
theorem one_winner {n : ℤ} {as : List Action} {s : Sys}
    (h : exec (step ⟨.empty, n⟩) Sys.init as = some s) (hnodup : (drawnTokens as).Nodup)
    (k : String) :
    (∀ pre a mid b post u v x y token token', as = pre ++ a :: (mid ++ b :: post) →
      exec (step ⟨.empty, n⟩) Sys.init pre = some u → step ⟨.empty, n⟩ u a = some v →
      exec (step ⟨.empty, n⟩) v mid = some x → step ⟨.empty, n⟩ x b = some y →
      Wins ⟨.empty, n⟩ u a k token → Wins ⟨.empty, n⟩ x b k token' →
      ∃ m c m' p q, mid = m ++ c :: m' ∧ exec (step ⟨.empty, n⟩) v m = some p ∧
        step ⟨.empty, n⟩ p c = some q ∧ EntersPending k p c q) ∧
    ∀ r, s.db.find? k = some r → r.state = .running →
      ∃ token, LastWin ⟨.empty, n⟩ as k token ∧ r.leaseToken = some token := by
  refine ⟨?_, lastWin_of_exec h k⟩
  rintro pre a mid b post u v x y token token' rfl hu ha hx hb hwin hwin'
  have hx' : exec (step ⟨.empty, n⟩) Sys.init (pre ++ a :: mid) = some x :=
    exec_append_iff.mpr ⟨u, hu, exec_cons_iff.mpr ⟨v, ha, hx⟩⟩
  have hnodup₁ : (drawnTokens pre).Nodup := nodup_of_append hnodup
  have hnodup₂ : (drawnTokens (pre ++ a :: mid)).Nodup := by
    rw [← List.cons_append, ← List.append_assoc] at hnodup
    exact nodup_of_append hnodup
  obtain ⟨-, hruns⟩ := hwin.spec (inv_of_exec hu) (tokensOk_of_exec hu hnodup₁) ha
  obtain ⟨hpending, -⟩ := hwin'.spec (inv_of_exec hx') (tokensOk_of_exec hx' hnodup₂) hb
  obtain ⟨m, c, m', p, q, hmid, hp, hc, -, hnot, hq⟩ :=
    exists_step_of_change (P := fun s => s.IsPending k) hruns.not_isPending hpending hx
  exact ⟨m, c, m', p, q, hmid, hp, hc, hnot, hq⟩

/-- The sample job is claimed, requeued when its lease has expired, and claimed again. -/
def claimTwice : List Action :=
  enqueueSample ++ [claimSample 0 1 0, .requeue (toTimestamp (300 * second)) 100 [],
    claimSample 1 2 (300 * second)]

/-- After the second claim the sample job runs under the token of its last winner. -/
theorem one_winner_claimTwice :
    ∃ s r token, exec (step ⟨.empty, 5⟩) Sys.init claimTwice = some s ∧
      s.db.find? sampleId = some r ∧ r.state = .running ∧
      LastWin ⟨.empty, 5⟩ claimTwice sampleId token ∧ r.leaseToken = some token := by
  obtain ⟨s, hs, hrow⟩ := (Option.any_eq_true _ _).mp
    (show (exec (step ⟨.empty, 5⟩) Sys.init claimTwice).any
      (fun s => (s.db.find? sampleId).any fun r => r.state = .running) = true by
        decide +kernel)
  obtain ⟨r, hfind, hrunning⟩ := (Option.any_eq_true _ _).mp hrow
  have hstate := of_decide_eq_true hrunning
  obtain ⟨token, hlast, htoken⟩ :=
    (one_winner hs (by decide +kernel) sampleId).2 r hfind hstate
  exact ⟨s, r, token, hs, hfind, hstate, hlast, htoken⟩

end Conduit
