import Conduit.Rows

/-!
# Fresh Lease Tokens

Every claim draws a lease token from sixteen random bytes. Assuming that the tokens drawn in
a run are pairwise distinct, a token stands for one claim by one worker: no two workers
carry the same token, and a token that is still on its way into the table is in no row.

## Main results

* `leaseToken_of_rowChange`: the ways a lease token gets into a row.
* `tokensOk_of_exec`: the freshness invariant, for every run with distinct tokens.
-/

namespace Conduit

open KeyedTable Transition

/-- The worker has drawn a token and not yet written it. -/
def Worker.Claiming (w : Worker) : Prop := w.pc = .read .claim ∨ w.pc = .write .claim

@[simp] theorem drawnTokens_concat (as : List Action) (a : Action) :
    drawnTokens (as ++ [a]) = drawnTokens as ++ a.drawn := by
  simp [drawnTokens]

/-- A drawn token is not empty. -/
theorem ne_empty_of_mem_drawn {a : Action} {token : String} (h : token ∈ a.drawn) :
    token ≠ "" := by
  unfold Action.drawn at h
  split at h
  · rw [List.mem_singleton] at h
    exact h ▸ newLeaseToken_ne_empty _
  · rw [List.mem_singleton] at h
    exact h ▸ newLeaseToken_ne_empty _
  · cases h

theorem ne_empty_of_mem_drawnTokens {as : List Action} {token : String}
    (h : token ∈ drawnTokens as) : token ≠ "" := by
  obtain ⟨a, -, ha⟩ := List.mem_flatMap.mp h
  exact ne_empty_of_mem_drawn ha

/-! ### Where tokens come from -/

/-- The token a worker's `UPDATE` leaves in the row is none or its own. -/
theorem leaseToken_updateEdit (now : Time) {job : Job} (hne : job.leaseToken ≠ "") (r : Row) :
    ((updateEdit now job).apply r).leaseToken = none ∨
      ((updateEdit now job).apply r).leaseToken = some job.leaseToken := by
  simp only [updateEdit, nullableString_of_ne hne]
  split
  · exact .inl rfl
  · exact .inr rfl

/-- How a lease token gets into a row: it was there, `ClaimNextJob` has just drawn it, or a
worker that was claiming writes its own. -/
theorem leaseToken_of_rowChange {s : Sys} {a : Action} {r r' : Row} {token : String}
    (hinv : s.Inv) (h : RowChange s r a r') (htoken : r'.leaseToken = some token) :
    r.leaseToken = some token ∨
      (∃ i call, a = .claimNext i call ∧ token = newLeaseToken call.rand) ∨
      ∃ i now, a = .worker i (.write now) ∧ (s.workers i).pc = .write .claim ∧
        token = (s.workers i).job.leaseToken := by
  cases h with
  | same => exact .inl htoken
  | cancelled => exact .inl htoken
  | requeued => cases htoken
  | @claimed i call => exact .inr (.inl ⟨i, call, rfl, (Option.some.inj htoken).symm⟩)
  | @updated i p now hpc hmatch =>
      have hjob := hinv.phase hpc
      rcases leaseToken_updateEdit now hjob.leaseToken_ne r with hnone | hsome
      · rw [hnone] at htoken
        cases htoken
      · rw [hsome] at htoken
        obtain rfl := Option.some.inj htoken
        rcases token_of_updateMatches hjob hmatch with hrow | ⟨rfl, -⟩
        · exact .inl hrow
        · exact .inr (.inr ⟨i, now, rfl, hpc, rfl⟩)
  | renewed => exact .inl htoken
  | released => cases htoken

/-- A row inserted by `Enqueue` has no lease token. -/
theorem leaseToken_insertRow {job : Job} (h : FreshJob job) (now : Time) :
    (insertRow now job).leaseToken = none := by
  simp only [insertRow, h.leaseToken, nullableString_empty]

/-- How a worker comes by its token: it had it, it has none, or the step has just drawn it
and concerns no other worker. -/
theorem leaseToken_of_step {cfg : Config} {s s' : Sys} {a : Action} (hinv : s.Inv)
    (h : step cfg s a = some s') (i : ℕ) :
    (s'.workers i).job.leaseToken = (s.workers i).job.leaseToken ∨
      (s'.workers i).job.leaseToken = "" ∨
      ((s'.workers i).job.leaseToken ∈ a.drawn ∧ ∀ j, j ≠ i → s'.workers j = s.workers j) := by
  cases step_workerChange h i with
  | same heq => rw [heq]; exact .inl rfl
  | claimed _ _ heq =>
      refine .inr (.inr ⟨?_, ?_⟩)
      · rw [heq]
        exact List.mem_singleton.mpr rfl
      · intro j hj
        cases step_workerChange h j with
        | same heq => exact heq
        | claimed => exact absurd rfl hj
  | delivered _ hjob heq =>
      rw [heq]
      exact .inr (.inl (hinv.kafka _ hjob).leaseToken)
  | moved hmove =>
      rcases hmove.keeps_claim with ⟨heq, -⟩ | ⟨now, lease, rand, rfl, -, heq⟩
      · exact .inl heq
      · refine .inr (.inr ⟨?_, ?_⟩)
        · rw [heq]
          exact List.mem_singleton.mpr rfl
        · exact fun _ => step_worker_ne h

/-- A worker that is claiming after a move was claiming before it, or has just drawn its
token; it has not written. -/
theorem WorkerStep.claiming {cfg : Config} {db db' : Jobs} {w w' : Worker} {act : WorkerAct}
    (h : WorkerStep cfg db w act db' w') (hclaim : w'.Claiming) :
    (w.Claiming ∧ w'.job.leaseToken = w.job.leaseToken ∧ ∀ now, act ≠ .write now) ∨
      ∃ now lease rand, act = .prepare now lease rand ∧
        w'.job.leaseToken = newWorkerLeaseToken rand := by
  have hkept : ∀ {pc : Pc}, pc ≠ .read .claim → pc ≠ .write .claim →
      ¬ (w.goto pc).Claiming := by
    rintro pc hr hw (heq | heq)
    · exact hr heq
    · exact hw heq
  cases h with
  | prepared => exact .inr ⟨_, _, _, rfl, rfl⟩
  | @checked p hpc =>
      refine .inl ⟨.inl ?_, rfl, nofun⟩
      rcases hclaim with heq | heq
      · cases heq
      · cases heq
        exact hpc
  | renewed => exact .inl ⟨hclaim, rfl, nofun⟩
  | notRenewed => exact .inl ⟨hclaim, rfl, nofun⟩
  | renewFailed => exact .inl ⟨hclaim, rfl, nofun⟩
  | refused =>
      rcases w.giveUp_cases "circuit open" with heq | ⟨heq, -⟩ <;> rw [heq] at hclaim <;>
        exact absurd hclaim (hkept nofun nofun)
  | notLocked =>
      rcases w.giveUp_cases "could not acquire execution lock" with heq | ⟨heq, -⟩ <;>
        rw [heq] at hclaim <;> exact absurd hclaim (hkept nofun nofun)
  | noHandler =>
      rcases w.failed_cases cfg _ _ with heq | heq <;> rw [heq] at hclaim <;>
        rcases hclaim with heq | heq <;> cases heq
  | failed =>
      rcases w.failed_cases cfg _ _ with heq | heq <;> rw [heq] at hclaim <;>
        rcases hclaim with heq | heq <;> cases heq
  | @written now p => cases p <;> rcases hclaim with heq | heq <;> cases heq
  | _ => rcases hclaim with heq | heq <;> cases heq

/-! ### The freshness invariant -/

/-- What is known of the tokens in a state reached by `as`. -/
structure TokensOk (as : List Action) (s : Sys) : Prop where
  /-- Tokens in the table were drawn. -/
  rows : ∀ k r token, s.db.find? k = some r → r.leaseToken = some token →
    token ∈ drawnTokens as
  /-- Tokens the workers carry were drawn. -/
  workers : ∀ i, (s.workers i).job.leaseToken ≠ "" →
    (s.workers i).job.leaseToken ∈ drawnTokens as
  /-- No two workers carry the same token. -/
  distinct : ∀ i j, i ≠ j → (s.workers i).job.leaseToken ≠ "" →
    (s.workers i).job.leaseToken ≠ (s.workers j).job.leaseToken
  /-- A token on its way into the table is in no row. -/
  claiming : ∀ i k r, (s.workers i).Claiming → s.db.find? k = some r →
    r.leaseToken ≠ some (s.workers i).job.leaseToken

/-- A claiming worker carries a token. -/
theorem leaseToken_ne_of_claiming {w : Worker} (hok : w.JobOk) (h : w.Claiming) :
    w.job.leaseToken ≠ "" := by
  unfold Worker.JobOk at hok
  rcases h with hpc | hpc <;> rw [hpc] at hok <;> exact hok.1.leaseToken

section Step

variable {cfg : Config} {as : List Action} {s s' : Sys} {a : Action}

theorem step_tokens_rows (hinv : s.Inv) (hok : TokensOk as s) (h : step cfg s a = some s')
    {k : String} {r' : Row} {token : String} (hfind : s'.db.find? k = some r')
    (htoken : r'.leaseToken = some token) : token ∈ drawnTokens (as ++ [a]) := by
  rw [drawnTokens_concat, List.mem_append]
  rcases hinv.rowOrigin h hfind with ⟨r, hr, hchange⟩ | ⟨-, job, now, hfresh, rfl⟩
  · rcases leaseToken_of_rowChange hinv hchange htoken with
      hold | ⟨i, call, rfl, rfl⟩ | ⟨i, now, rfl, hpc, rfl⟩
    · exact .inl (hok.rows k r token hr hold)
    · exact .inr (List.mem_singleton.mpr rfl)
    · exact .inl (hok.workers i (hinv.phase hpc).leaseToken_ne)
  · rw [leaseToken_insertRow hfresh] at htoken
    cases htoken

theorem step_tokens_workers (hinv : s.Inv) (hok : TokensOk as s)
    (h : step cfg s a = some s') (i : ℕ) (hne : (s'.workers i).job.leaseToken ≠ "") :
    (s'.workers i).job.leaseToken ∈ drawnTokens (as ++ [a]) := by
  rw [drawnTokens_concat, List.mem_append]
  rcases leaseToken_of_step hinv h i with heq | hempty | ⟨hdrawn, -⟩
  · rw [heq] at hne ⊢
    exact .inl (hok.workers i hne)
  · exact absurd hempty hne
  · exact .inr hdrawn

theorem step_tokens_distinct (hinv : s.Inv) (hok : TokensOk as s)
    (hnodup : (drawnTokens (as ++ [a])).Nodup) (h : step cfg s a = some s') {i j : ℕ}
    (hij : i ≠ j) (hne : (s'.workers i).job.leaseToken ≠ "") :
    (s'.workers i).job.leaseToken ≠ (s'.workers j).job.leaseToken := by
  intro heq
  rcases leaseToken_of_step hinv h i with hi | hi | ⟨hi, hothers⟩
  · rcases leaseToken_of_step hinv h j with hj | hj | ⟨hj, -⟩
    · rw [hi] at hne
      rw [hi, hj] at heq
      exact hok.distinct i j hij hne heq
    · exact hne (heq.trans hj)
    · rw [hi] at heq hne
      rw [← heq] at hj
      exact not_mem_of_drawn hnodup hj (hok.workers i hne)
  · exact hne hi
  · have hj : (s'.workers j).job.leaseToken = (s.workers j).job.leaseToken := by
      rw [hothers j hij.symm]
    rw [heq, hj] at hne
    rw [heq, hj] at hi
    exact not_mem_of_drawn hnodup hi (hok.workers j hne)

/-- A worker that is claiming after a step was claiming before it with the same token, or
the step draws its token. -/
theorem step_claiming (h : step cfg s a = some s') {i : ℕ}
    (hclaim : (s'.workers i).Claiming) :
    ((s.workers i).Claiming ∧
        (s'.workers i).job.leaseToken = (s.workers i).job.leaseToken ∧
        ∀ now, a ≠ .worker i (.write now)) ∨
      ∃ now lease rand, a = .worker i (.prepare now lease rand) ∧
        (s'.workers i).job.leaseToken = newWorkerLeaseToken rand := by
  cases step_workerChange h i with
  | same heq hother =>
      rw [heq] at hclaim ⊢
      exact .inl ⟨hclaim, rfl, fun _ => hother _⟩
  | claimed _ _ heq =>
      rw [heq] at hclaim
      rcases hclaim with hpc | hpc <;> cases hpc
  | delivered _ _ heq =>
      rw [heq] at hclaim
      rcases hclaim with hpc | hpc <;> cases hpc
  | moved hmove =>
      rcases hmove.claiming hclaim with ⟨hold, htoken, hact⟩ | ⟨now, lease, rand, rfl, htoken⟩
      · refine .inl ⟨hold, htoken, ?_⟩
        rintro now heq
        cases heq
        exact hact now rfl
      · exact .inr ⟨now, lease, rand, rfl, htoken⟩

theorem step_tokens_claiming (hinv : s.Inv) (hok : TokensOk as s)
    (hnodup : (drawnTokens (as ++ [a])).Nodup) (h : step cfg s a = some s') {i : ℕ}
    {k : String} {r' : Row} (hclaim : (s'.workers i).Claiming)
    (hfind : s'.db.find? k = some r') :
    r'.leaseToken ≠ some (s'.workers i).job.leaseToken := by
  intro htoken
  rcases hinv.rowOrigin h hfind with ⟨r, hr, hchange⟩ | ⟨-, job, now, hfresh, rfl⟩
  · rcases step_claiming h hclaim with ⟨hold, heq, hact⟩ | ⟨now, lease, rand, rfl, heq⟩
    · have hne := leaseToken_ne_of_claiming (hinv.workers i) hold
      rw [heq] at htoken
      rcases leaseToken_of_rowChange hinv hchange htoken with
        hrow | ⟨j, call, rfl, hdrawn⟩ | ⟨j, now, rfl, hpc, hwrite⟩
      · exact hok.claiming i k r hold hr hrow
      · refine not_mem_of_drawn hnodup ?_ (hok.workers i hne)
        exact List.mem_singleton.mpr hdrawn
      · -- Another worker's claim would be under another token.
        have hij : i ≠ j := fun hij => hact now (hij ▸ rfl)
        exact hok.distinct i j hij hne hwrite
    · -- The token has just been drawn, so no row can have it yet.
      cases hchange with
      | same =>
          refine not_mem_of_drawn hnodup ?_ (hok.rows k _ _ hr htoken)
          exact List.mem_singleton.mpr heq
  · rw [leaseToken_insertRow hfresh] at htoken
    cases htoken

end Step

/-- **Freshness.** In every run whose drawn tokens are distinct, tokens are as `TokensOk`
says. -/
theorem tokensOk_of_exec {cfg : Config} {as : List Action} {s : Sys}
    (h : exec (step cfg) Sys.init as = some s) (hnodup : (drawnTokens as).Nodup) :
    TokensOk as s := by
  refine exec_history (H := fun as s => (drawnTokens as).Nodup → TokensOk as s) ?_ ?_ h hnodup
  · intro _
    refine ⟨?_, fun _ hne => absurd rfl hne, fun _ _ _ hne => absurd rfl hne, ?_⟩
    · intro k r token hfind
      rw [Sys.init, find?_empty] at hfind
      cases hfind
    · rintro i k r (hpc | hpc) <;> cases hpc
  · intro as u a v hu hok hstep hnodup
    have hinv := inv_of_exec hu
    have hok := hok (nodup_of_append hnodup)
    exact
      ⟨fun _ _ _ => step_tokens_rows hinv hok hstep,
        step_tokens_workers hinv hok hstep,
        fun _ _ => step_tokens_distinct hinv hok hnodup hstep,
        fun _ _ _ => step_tokens_claiming hinv hok hnodup hstep⟩

end Conduit
