import Conduit.Redlock
import Conduit.System

/-!
# One Execution at a Time

The system together with the lock manager. Here a worker gets past `locking` only through a
call of `Acquire` on the key of its job, and finishes through `Release`; everything else is
as in `Conduit.System`. There is one clock, by which keys expire.

The lock is taken for thirty seconds and never extended, while a handler may run for as long
as it likes. The lease of the job is renewed, but the renewal loop ends at its first error.
So an execution can lose both, and then another copy of the job is claimed, takes the lock
and runs beside it. The lock keeps its promise only within its TTL.

## Main results

* `lockSysStep_base`: the system with locks runs the system without them.
* `expired_of_locked`: of two copies of one job past the lock, one has outlived its lock.
* `exclusive_of_not_outlived`: executions exclude each other as long as none outlives its lock.
* `allStates_exclusive_iff`: executions exclude each other along a run exactly when no handler
  starts beside an execution of its job with one of the two locks outlived.
* `allStates_exclusive`: they do when no handler starts with a lock of its job outlived.
-/

namespace Conduit

open Transition

/-- The state of the system with its locks. -/
structure LockSys where
  base : Sys
  clock : Time
  nodes : Nodes
  locks : ℕ → LockCall

/-- Nobody at work and no key set. -/
def LockSys.init : LockSys where
  base := Sys.init
  clock := 0
  nodes _ _ := none
  locks _ := .idle

/-- One atomic step. -/
inductive LockAction
  | base (a : Action)
  | tick (d : ℕ)
  /-- A step of the `Acquire` call of the worker in slot `i`. -/
  | acquire (i : ℕ) (act : AcquireAct)
  /-- A step of the `Release` call of the worker in slot `i`. -/
  | release (i : ℕ) (act : ReleaseAct)

/-- The actions of a worker that the lock manager decides. -/
def Action.ofLock : Action → Bool
  | .worker _ (.acquire _) => true
  | .worker _ .unlock => true
  | _ => false

/-- The key of the worker in slot `i`. -/
def LockSys.resource (s : LockSys) (i : ℕ) : String :=
  lockResource (s.base.workers i).job.id

/-- One step of the system with its locks. -/
def lockSysStep (cfg : Config) (m : Manager) (s : LockSys) : LockAction → Option LockSys
  | .base a =>
    if a.ofLock then none
    else
      match step cfg s.base a with
      | none => none
      | some base => some { s with base := base }
  | .tick d => some { s with clock := s.clock + d }
  | .acquire i act =>
    if (s.base.workers i).pc = .locking then
      match acquireStep m s.clock s.nodes (s.resource i) (s.locks i) act with
      | none => none
      | some (nodes, call, none) =>
        some { s with nodes := nodes, locks := Function.update s.locks i call }
      | some (nodes, call, some acquired) =>
        match step cfg s.base (.worker i (.acquire acquired)) with
        | none => none
        | some base =>
          some { s with
            base := base
            nodes := nodes
            locks := Function.update s.locks i call }
    else none
  | .release i act =>
    if (s.base.workers i).pc = .unlock then
      match releaseStep m s.clock s.nodes (s.resource i) (s.locks i) act with
      | none => none
      | some (nodes, call, false) =>
        some { s with nodes := nodes, locks := Function.update s.locks i call }
      | some (nodes, call, true) =>
        match step cfg s.base (.worker i .unlock) with
        | none => none
        | some base =>
          some { s with
            base := base
            nodes := nodes
            locks := Function.update s.locks i call }
    else none

/-- The steps of the system with its locks, one by one. -/
inductive LockSysStep (cfg : Config) (m : Manager) (s : LockSys) : LockAction → LockSys → Prop
  | base {a : Action} {base : Sys} (hlock : a.ofLock = false)
      (h : step cfg s.base a = some base) :
      LockSysStep cfg m s (.base a) { s with base := base }
  | tick {d : ℕ} : LockSysStep cfg m s (.tick d) { s with clock := s.clock + d }
  | asked {i : ℕ} {act : AcquireAct} {nodes : Nodes} {call : LockCall}
      (hpc : (s.base.workers i).pc = .locking)
      (h : AcquireStep m s.clock s.nodes (s.resource i) (s.locks i) act nodes call none) :
      LockSysStep cfg m s (.acquire i act)
        { s with nodes := nodes, locks := Function.update s.locks i call }
  | answered {i : ℕ} {act : AcquireAct} {nodes : Nodes} {call : LockCall} {acquired : Bool}
      {base : Sys} (hpc : (s.base.workers i).pc = .locking)
      (h : AcquireStep m s.clock s.nodes (s.resource i) (s.locks i) act nodes call
        (some acquired))
      (hbase : step cfg s.base (.worker i (.acquire acquired)) = some base) :
      LockSysStep cfg m s (.acquire i act)
        { s with base := base, nodes := nodes, locks := Function.update s.locks i call }
  | releasing {i : ℕ} {act : ReleaseAct} {nodes : Nodes} {call : LockCall}
      (hpc : (s.base.workers i).pc = .unlock)
      (h : releaseStep m s.clock s.nodes (s.resource i) (s.locks i) act =
        some (nodes, call, false)) :
      LockSysStep cfg m s (.release i act)
        { s with nodes := nodes, locks := Function.update s.locks i call }
  | released {i : ℕ} {act : ReleaseAct} {nodes : Nodes} {call : LockCall} {base : Sys}
      (hpc : (s.base.workers i).pc = .unlock)
      (h : releaseStep m s.clock s.nodes (s.resource i) (s.locks i) act =
        some (nodes, call, true))
      (hbase : step cfg s.base (.worker i .unlock) = some base) :
      LockSysStep cfg m s (.release i act)
        { s with base := base, nodes := nodes, locks := Function.update s.locks i call }

/-- Every step of `lockSysStep` is one of the listed steps. -/
theorem lockSysStep_sound {cfg : Config} {m : Manager} {s s' : LockSys} {b : LockAction}
    (h : lockSysStep cfg m s b = some s') : LockSysStep cfg m s b s' := by
  cases b with
  | base a =>
      simp only [lockSysStep] at h
      split at h
      · cases h
      · rename_i hlock
        split at h
        · cases h
        · rename_i hstep
          cases h
          exact .base (by simpa using hlock) hstep
  | tick d =>
      simp only [lockSysStep] at h
      cases h
      exact .tick
  | acquire i act =>
      simp only [lockSysStep] at h
      split at h
      · rename_i hpc
        split at h
        · cases h
        · rename_i hacq
          cases h
          exact .asked hpc (acquireStep_sound hacq)
        · rename_i hacq
          split at h
          · cases h
          · rename_i hbase
            cases h
            exact .answered hpc (acquireStep_sound hacq) hbase
      · cases h
  | release i act =>
      simp only [lockSysStep] at h
      split at h
      · rename_i hpc
        split at h
        · cases h
        · rename_i hrel
          cases h
          exact .releasing hpc hrel
        · rename_i hrel
          split at h
          · cases h
          · rename_i hbase
            cases h
            exact .released hpc hrel hbase
      · cases h

/-- **The system with locks runs the system without them**, so everything shown of every run
of the latter holds of the former. -/
theorem lockSysStep_base {cfg : Config} {m : Manager} {bs : List LockAction} {s : LockSys}
    (h : exec (lockSysStep cfg m) LockSys.init bs = some s) :
    ∃ as, exec (step cfg) Sys.init as = some s.base := by
  refine exec_simulation LockSys.base ?_ h
  intro s b s' hstep
  cases lockSysStep_sound hstep with
  | base _ hbase => exact ⟨[_], by rw [exec_singleton]; exact hbase⟩
  | tick => exact ⟨[], rfl⟩
  | asked => exact ⟨[], rfl⟩
  | answered _ _ hbase => exact ⟨[_], by rw [exec_singleton]; exact hbase⟩
  | releasing => exact ⟨[], rfl⟩
  | released _ _ hbase => exact ⟨[_], by rw [exec_singleton]; exact hbase⟩

/-! ### Locks and program counters -/

/-- The call is inside `Acquire`, or about to start it. -/
def LockCall.Acquiring : LockCall → Prop
  | .idle => True
  | .setting _ _ _ _ _ => True
  | .undoing _ _ _ => True
  | .waiting _ _ _ => True
  | _ => False

/-- The call is a lock that is held. -/
def LockCall.Held (call : LockCall) : Prop :=
  ∃ value start acquired, call = .held value start acquired

/-- The worker has passed the lock and not begun to return. -/
def Pc.pastLock : Pc → Bool
  | .locked | .read _ | .write _ | .ready | .executing => true
  | _ => false

/-- Where the lock call of a worker can be. -/
def Pc.LockFits (call : LockCall) : Pc → Prop
  | .idle | .claimed | .queued | .entry | .sleeping | .breaker => call = .idle
  | .locking => call.Acquiring
  | .locked | .read _ | .write _ | .ready | .executing => call.Held
  | .release _ | .unlock | .done => True

/-- Past the lock, the lock is held. -/
theorem held_of_pastLock {pc : Pc} {call : LockCall} (h : pc.LockFits call)
    (hpast : pc.pastLock = true) : call.Held := by
  cases pc <;> first | exact h | cases hpast

/-- A worker that gives up needs no lock. -/
theorem lockFits_giveUp (w : Worker) (reason : String) (call : LockCall) :
    (w.giveUp reason).pc.LockFits call := by
  rcases w.giveUp_cases reason with heq | ⟨heq, -⟩ <;> rw [heq] <;> trivial

/-- The moves of a worker that the lock manager does not decide leave its lock call where it
belongs. -/
theorem WorkerStep.lockFits {cfg : Config} {db db' : Jobs} {w w' : Worker} {act : WorkerAct}
    {i : ℕ} {call : LockCall} (h : WorkerStep cfg db w act db' w')
    (hlock : (Action.worker i act).ofLock = false) (hfits : w.pc.LockFits call) :
    w'.pc.LockFits call := by
  cases h with
  | submitted hpc => rw [hpc] at hfits; exact hfits
  | begun hpc => rw [hpc] at hfits; exact hfits
  | due hpc => rw [hpc] at hfits; exact hfits
  | slept hpc => rw [hpc] at hfits; exact hfits
  | woke hpc => rw [hpc] at hfits; exact hfits
  | allowed hpc =>
      rw [hpc] at hfits
      obtain rfl : call = .idle := hfits
      trivial
  | refused => exact lockFits_giveUp w _ call
  | lockedClaimed => cases hlock
  | lockedUnclaimed => cases hlock
  | notLocked => cases hlock
  | unlocked => cases hlock
  | prepared hpc => rw [hpc] at hfits; exact hfits
  | checked hpc => rw [hpc] at hfits; exact hfits
  | @written _ p hpc => rw [hpc] at hfits; cases p <;> first | exact hfits | trivial
  | started hpc => rw [hpc] at hfits; exact hfits
  | noHandler hpc =>
      rw [hpc] at hfits
      rcases w.failed_cases cfg _ _ with heq | heq <;> rw [heq] <;> exact hfits
  | succeeded hpc => rw [hpc] at hfits; exact hfits
  | failed hpc =>
      rw [hpc] at hfits
      rcases w.failed_cases cfg _ _ with heq | heq <;> rw [heq] <;> exact hfits
  | renewed => exact hfits
  | notRenewed => exact hfits
  | renewFailed => exact hfits
  | _ => trivial

/-- An `Acquire` that has not returned goes on, and one that returns true holds the lock. -/
theorem AcquireStep.call {m : Manager} {clock : Time} {nodes nodes' : Nodes}
    {resource : String} {call call' : LockCall} {act : AcquireAct} {result : Option Bool}
    (h : AcquireStep m clock nodes resource call act nodes' call' result) :
    (result = none → call'.Acquiring) ∧ (result = some true → call'.Held) := by
  cases h with
  | acquired => exact ⟨nofun, fun _ => ⟨_, _, _, rfl⟩⟩
  | startFailed => exact ⟨nofun, nofun⟩
  | exhausted => exact ⟨nofun, nofun⟩
  | ctxDone => exact ⟨nofun, nofun⟩
  | _ => exact ⟨fun _ => trivial, nofun⟩

/-- A worker past `locking` by the answer of `Acquire` fits a call with that answer. -/
theorem lockFits_of_acquire {cfg : Config} {db db' : Jobs} {w w' : Worker} {acquired : Bool}
    {call : LockCall} (h : WorkerStep cfg db w (.acquire acquired) db' w')
    (hheld : acquired = true → call.Held) : w'.pc.LockFits call := by
  cases h with
  | lockedClaimed => exact hheld rfl
  | lockedUnclaimed => exact hheld rfl
  | notLocked => exact lockFits_giveUp w _ call

/-- A worker that has returned fits any call. -/
theorem lockFits_of_unlock {cfg : Config} {db db' : Jobs} {w w' : Worker} {call : LockCall}
    (h : WorkerStep cfg db w .unlock db' w') : w'.pc.LockFits call := by
  cases h
  trivial

/-! ### The invariant -/

/-- The values an action draws for a lock. -/
def LockAction.values : LockAction → List String
  | .acquire _ (.start rand) => [generateToken rand]
  | _ => []

/-- The lock values a run draws, in order. -/
def lockValues (bs : List LockAction) : List String := bs.flatMap LockAction.values

/-- What is known of the locks in a state reached by `bs`. -/
structure LocksOk (m : Manager) (bs : List LockAction) (s : LockSys) : Prop where
  fits : ∀ i, (s.base.workers i).pc.LockFits (s.locks i)
  keys : ∀ i, (s.locks i).KeysOk m.cfg.ttl s.clock s.nodes (s.resource i)
  counts : ∀ i, (s.locks i).CountOk m s.clock
  drawn : ∀ i value, (s.locks i).value = some value → value ∈ lockValues bs
  distinct : ∀ i j value, i ≠ j → (s.locks i).value = some value →
    (s.locks j).value ≠ some value

theorem lockValues_concat (bs : List LockAction) (b : LockAction) :
    lockValues (bs ++ [b]) = lockValues bs ++ b.values := by
  simp [lockValues]

theorem locksOk_init (m : Manager) : LocksOk m [] LockSys.init where
  fits _ := rfl
  keys _ := trivial
  counts _ := trivial
  drawn _ _ h := by cases h
  distinct _ _ _ _ h := by cases h

section Step

variable {cfg : Config} {m : Manager} {bs : List LockAction} {s s' : LockSys} {b : LockAction}

/-- A step of the base system that the lock manager does not decide. -/
theorem locksOk_base {a : Action} {base : Sys} (hok : LocksOk m bs s)
    (hlock : a.ofLock = false) (h : step cfg s.base a = some base) :
    LocksOk m (bs ++ [.base a]) { s with base := base } := by
  -- A worker that the step gives a new job was idle, and so is its lock call.
  have hworker : ∀ i, (base.workers i).pc.LockFits (s.locks i) ∧
      ((base.workers i).job.id = (s.base.workers i).job.id ∨ s.locks i = .idle) := by
    intro i
    have hfits := hok.fits i
    cases step_workerChange h i with
    | same heq => rw [heq]; exact ⟨hfits, .inl rfl⟩
    | claimed hidle _ heq =>
        rw [hidle] at hfits
        rw [heq]
        exact ⟨hfits, .inr hfits⟩
    | delivered hidle _ heq =>
        rw [hidle] at hfits
        rw [heq]
        exact ⟨hfits, .inr hfits⟩
    | moved hmove => exact ⟨hmove.lockFits hlock hfits, .inl hmove.job_id⟩
  refine ⟨fun i => (hworker i).1, ?_, hok.counts, ?_, hok.distinct⟩
  · intro i
    rcases (hworker i).2 with hid | hidle
    · have hkeys := hok.keys i
      rw [LockSys.resource, ← hid] at hkeys
      exact hkeys
    · rw [hidle]
      trivial
  · intro i value hvalue
    rw [lockValues_concat]
    exact List.mem_append_left _ (hok.drawn i value hvalue)

/-- Time passes. -/
theorem locksOk_tick (hok : LocksOk m bs s) (d : ℕ) :
    LocksOk m (bs ++ [.tick d]) { s with clock := s.clock + d } := by
  have hle : s.clock ≤ s.clock + d := Int.le_add_of_nonneg_right (Int.natCast_nonneg d)
  refine ⟨hok.fits, fun i => (hok.keys i).tick hle, fun i => (hok.counts i).tick hle, ?_,
    hok.distinct⟩
  intro i value hvalue
  rw [lockValues_concat]
  exact List.mem_append_left _ (hok.drawn i value hvalue)

/-- A step of one lock call: it moves its own worker or none, leaves live keys of other values
alone, and has a value that it had before or has just drawn. -/
theorem locksOk_update {i : ℕ} {base : Sys} {nodes : Nodes} {call : LockCall}
    (hok : LocksOk m bs s) (hothers : ∀ j, j ≠ i → base.workers j = s.base.workers j)
    (hid : (base.workers i).job.id = (s.base.workers i).job.id)
    (hframe : Undisturbed s.clock s.nodes nodes (s.locks i).value)
    (hfits : (base.workers i).pc.LockFits call)
    (hkeys : call.KeysOk m.cfg.ttl s.clock nodes (s.resource i))
    (hcount : call.CountOk m s.clock)
    (hvalue : ∀ value, call.value = some value → (s.locks i).value = some value ∨
      value ∈ b.values ∧ value ∉ lockValues bs) :
    LocksOk m (bs ++ [b])
      { s with base := base, nodes := nodes, locks := Function.update s.locks i call } := by
  have hself : Function.update s.locks i call i = call := Function.update_self _ _ _
  have hother : ∀ j, j ≠ i → Function.update s.locks i call j = s.locks j := fun j hj =>
    Function.update_of_ne hj _ _
  -- Every other call has another value.
  have hne : ∀ j, j ≠ i → ∀ value, call.value = some value → (s.locks j).value ≠ some value := by
    intro j hj value hcall hval
    rcases hvalue value hcall with hold | ⟨-, hnew⟩
    · exact hok.distinct i j value hj.symm hold hval
    · exact hnew (hok.drawn j value hval)
  refine ⟨?_, ?_, ?_, ?_, ?_⟩ <;> dsimp only
  · intro j
    by_cases hj : j = i
    · rw [hj, hself]
      exact hfits
    · rw [hother j hj, hothers j hj]
      exact hok.fits j
  · intro j
    by_cases hj : j = i
    · rw [hj, hself, LockSys.resource, hid]
      exact hkeys
    · rw [hother j hj, LockSys.resource, hothers j hj]
      refine (hok.keys j).frame hframe ?_
      intro value hval heq
      exact hok.distinct i j value (Ne.symm hj) heq.symm hval
  · intro j
    by_cases hj : j = i
    · rw [hj, hself]
      exact hcount
    · rw [hother j hj]
      exact hok.counts j
  · intro j value hval
    rw [lockValues_concat, List.mem_append]
    by_cases hj : j = i
    · rw [hj, hself] at hval
      rcases hvalue value hval with hold | ⟨hnew, -⟩
      · exact .inl (hok.drawn i value hold)
      · exact .inr hnew
    · rw [hother j hj] at hval
      exact .inl (hok.drawn j value hval)
  · intro j k value hjk hval
    by_cases hj : j = i
    · have hk : k ≠ i := fun hk => hjk (hj.trans hk.symm)
      rw [hj, hself] at hval
      rw [hother k hk]
      exact hne k hk value hval
    · rw [hother j hj] at hval
      by_cases hk : k = i
      · rw [hk, hself]
        intro hcall
        exact hne j hj value hcall hval
      · rw [hother k hk]
        exact hok.distinct j k value hjk hval

/-- The value of an `Acquire` call after a step is its old one or a new one. -/
theorem AcquireStep.value_fresh {i : ℕ} {clock : Time} {nodes nodes' : Nodes}
    {resource : String} {call call' : LockCall} {act : AcquireAct} {result : Option Bool}
    (h : AcquireStep m clock nodes resource call act nodes' call' result)
    (hnodup : (lockValues (bs ++ [.acquire i act])).Nodup) {value : String}
    (hvalue : call'.value = some value) :
    call.value = some value ∨
      value ∈ (LockAction.acquire i act).values ∧ value ∉ lockValues bs := by
  rcases h.value with heq | hnone | ⟨rand, rfl, hnew⟩
  · exact .inl (heq ▸ hvalue)
  · rw [hnone] at hvalue
    cases hvalue
  · rw [hnew] at hvalue
    obtain rfl := Option.some.inj hvalue
    have hmem : generateToken rand ∈ (LockAction.acquire i (.start rand)).values :=
      List.mem_singleton.mpr rfl
    exact .inr ⟨hmem, not_mem_of_drawn hnodup hmem⟩

/-- Every step keeps the locks in order. -/
theorem step_locksOk (hok : LocksOk m bs s) (hnodup : (lockValues (bs ++ [b])).Nodup)
    (h : lockSysStep cfg m s b = some s') : LocksOk m (bs ++ [b]) s' := by
  cases lockSysStep_sound h with
  | base hlock hbase => exact locksOk_base hok hlock hbase
  | tick => exact locksOk_tick hok _
  | @asked i act nodes call hpc hacq =>
      refine locksOk_update hok (fun _ _ => rfl) rfl hacq.frame ?_
        (hacq.keysOk (hok.keys i) (hok.counts i)) (hacq.countOk (hok.counts i))
        (fun _ => hacq.value_fresh hnodup)
      rw [hpc]
      exact hacq.call.1 rfl
  | @answered i act nodes call acquired base hpc hacq hbase =>
      have hmove := step_worker_self hbase
      refine locksOk_update hok (fun _ => step_worker_ne hbase) hmove.job_id hacq.frame ?_
        (hacq.keysOk (hok.keys i) (hok.counts i)) (hacq.countOk (hok.counts i))
        (fun _ => hacq.value_fresh hnodup)
      exact lockFits_of_acquire hmove fun heq => hacq.call.2 (by rw [heq])
  | @releasing i act nodes call hpc hrel =>
      obtain ⟨hkeys, hcount⟩ := releaseStep_trivial hrel
      refine locksOk_update hok (fun _ _ => rfl) rfl (releaseStep_frame hrel) ?_ hkeys hcount
        (fun _ hvalue => .inl (releaseStep_value hrel hvalue))
      rw [hpc]
      trivial
  | @released i act nodes call base hpc hrel hbase =>
      have hmove := step_worker_self hbase
      obtain ⟨hkeys, hcount⟩ := releaseStep_trivial hrel
      exact locksOk_update hok (fun _ => step_worker_ne hbase) hmove.job_id
        (releaseStep_frame hrel) (lockFits_of_unlock hmove) hkeys hcount
        (fun _ hvalue => .inl (releaseStep_value hrel hvalue))

end Step

/-- In every run with distinct lock values, the locks are in order. -/
theorem locksOk_of_exec {cfg : Config} {m : Manager} {bs : List LockAction} {s : LockSys}
    (h : exec (lockSysStep cfg m) LockSys.init bs = some s) (hnodup : (lockValues bs).Nodup) :
    LocksOk m bs s := by
  refine exec_history (H := fun bs s => (lockValues bs).Nodup → LocksOk m bs s)
    (fun _ => locksOk_init m) ?_ h hnodup
  intro bs s b s' _ hok hstep hnodup
  exact step_locksOk (hok (nodup_of_append hnodup)) hnodup hstep

/-! ### Exclusion -/

/-- No two handler executions of one job are in progress. -/
def LockSys.Exclusive (s : LockSys) : Prop :=
  ∀ i j, i ≠ j → (s.base.workers i).pc = .executing → (s.base.workers j).pc = .executing →
    (s.base.workers i).job.id ≠ (s.base.workers j).job.id

/-- The worker in slot `i` is past the lock, and the TTL of its lock has run out. -/
def LockSys.Outlived (m : Manager) (s : LockSys) (i : ℕ) : Prop :=
  match s.locks i with
  | .held _ start _ => start + m.cfg.ttl ≤ s.clock
  | _ => False

/-- The action starts the handler of a job beside an execution of the same job, and one of
the two workers has outlived its lock. -/
def StartsBeside (m : Manager) (s : LockSys) (b : LockAction) : Prop :=
  ∃ i j, b = .base (.worker i .exec) ∧
    handlerRegistered (s.base.workers i).job.task.name = true ∧ i ≠ j ∧
    (s.base.workers j).pc = .executing ∧
    (s.base.workers i).job.id = (s.base.workers j).job.id ∧ (s.Outlived m i ∨ s.Outlived m j)

/-- The action starts the handler of a job while a worker past the lock of the job, the
starting one included, has outlived it. -/
def StartsLapsed (m : Manager) (s : LockSys) (b : LockAction) : Prop :=
  ∃ i j, b = .base (.worker i .exec) ∧ (s.base.workers j).pc.pastLock = true ∧
    (s.base.workers i).job.id = (s.base.workers j).job.id ∧ s.Outlived m j

/-- **Of two copies of one job past the lock, one has outlived its lock.** -/
theorem expired_of_locked {m : Manager} (hmajority : (m.clients : ℤ) < 2 * m.cfg.quorum)
    {bs : List LockAction} {s : LockSys} (hok : LocksOk m bs s) {i j : ℕ} (hij : i ≠ j)
    (hi : (s.base.workers i).pc.pastLock = true) (hj : (s.base.workers j).pc.pastLock = true)
    (hid : (s.base.workers i).job.id = (s.base.workers j).job.id) :
    s.Outlived m i ∨ s.Outlived m j := by
  obtain ⟨value, start, acquired, hlock⟩ := held_of_pastLock (hok.fits i) hi
  obtain ⟨value', start', acquired', hlock'⟩ := held_of_pastLock (hok.fits j) hj
  simp only [LockSys.Outlived, hlock, hlock']
  by_contra hlive
  rw [not_or, not_le, not_le] at hlive
  have hne : value ≠ value' := by
    rintro rfl
    exact hok.distinct i j value hij (by rw [hlock]; rfl) (by rw [hlock']; rfl)
  have hkeys := hok.keys i
  have hkeys' := hok.keys j
  have hcount := hok.counts i
  have hcount' := hok.counts j
  rw [LockSys.resource, hid] at hkeys
  rw [hlock] at hkeys hcount
  rw [hlock'] at hkeys' hcount'
  exact keys_disjoint hmajority hne hcount hcount' hkeys hkeys' hlive.1 hlive.2

/-- **The lock within its TTL.** A state that a run with distinct lock values reaches is
exclusive as long as no execution has outlived its lock. -/
theorem exclusive_of_not_outlived {cfg : Config} {n : ℕ} {bs : List LockAction} {s : LockSys}
    (h : exec (lockSysStep cfg (serverLockManager n)) LockSys.init bs = some s)
    (hnodup : (lockValues bs).Nodup)
    (hlive : ∀ i, (s.base.workers i).pc = .executing → ¬ s.Outlived (serverLockManager n) i) :
    s.Exclusive := by
  intro i j hij hi hj hid
  have hok := locksOk_of_exec h hnodup
  have hpast : ∀ k, (s.base.workers k).pc = .executing →
      (s.base.workers k).pc.pastLock = true := by
    intro k hk
    rw [hk]
    rfl
  rcases expired_of_locked (clients_lt_quorum n) hok hij (hpast i hi) (hpast j hj) hid with
    hout | hout
  · exact hlive i hi hout
  · exact hlive j hj hout

/-- An execution in progress after a step was in progress before it, on the same job, or the
step starts it. -/
theorem executing_of_step {cfg : Config} {m : Manager} {s s' : LockSys} {b : LockAction}
    (h : lockSysStep cfg m s b = some s') {i : ℕ}
    (hexec : (s'.base.workers i).pc = .executing) :
    (s'.base.workers i).job.id = (s.base.workers i).job.id ∧
      ((s.base.workers i).pc = .executing ∨
        b = .base (.worker i .exec) ∧ (s.base.workers i).pc = .ready ∧
          handlerRegistered (s.base.workers i).job.task.name = true) := by
  have hbase : ∀ {a : Action} {base : Sys}, step cfg s.base a = some base →
      (base.workers i).pc = .executing →
      (base.workers i).job.id = (s.base.workers i).job.id ∧
        ((s.base.workers i).pc = .executing ∨
          a = .worker i .exec ∧ (s.base.workers i).pc = .ready ∧
            handlerRegistered (s.base.workers i).job.task.name = true) := by
    intro a base hstep hexec
    cases step_workerChange hstep i with
    | same heq =>
        rw [heq] at hexec ⊢
        exact ⟨rfl, .inl hexec⟩
    | claimed _ _ heq =>
        rw [heq] at hexec
        cases hexec
    | delivered _ _ heq =>
        rw [heq] at hexec
        cases hexec
    | moved hmove =>
        refine ⟨hmove.job_id, ?_⟩
        rcases hmove.executing hexec with hold | ⟨rfl, hready, hreg⟩
        · exact .inl hold
        · exact .inr ⟨rfl, hready, hreg⟩
  cases lockSysStep_sound h with
  | base _ hstep =>
      obtain ⟨hid, hold | ⟨rfl, hready, hreg⟩⟩ := hbase hstep hexec
      · exact ⟨hid, .inl hold⟩
      · exact ⟨hid, .inr ⟨rfl, hready, hreg⟩⟩
  | tick => exact ⟨rfl, .inl hexec⟩
  | asked => exact ⟨rfl, .inl hexec⟩
  | answered _ _ hstep =>
      obtain ⟨hid, hold | ⟨heq, -⟩⟩ := hbase hstep hexec
      · exact ⟨hid, .inl hold⟩
      · cases heq
  | releasing => exact ⟨rfl, .inl hexec⟩
  | released _ _ hstep =>
      obtain ⟨hid, hold | ⟨heq, -⟩⟩ := hbase hstep hexec
      · exact ⟨hid, .inl hold⟩
      · cases heq

/-- A step that starts no handler beside another keeps executions exclusive. -/
theorem step_exclusive {cfg : Config} {m : Manager}
    (hmajority : (m.clients : ℤ) < 2 * m.cfg.quorum) {bs : List LockAction} {s s' : LockSys}
    {b : LockAction} (hok : LocksOk m bs s) (hexcl : s.Exclusive)
    (hnot : ¬ StartsBeside m s b) (h : lockSysStep cfg m s b = some s') : s'.Exclusive := by
  -- Whichever of the two the step starts, it starts beside the other.
  have hstart : ∀ i j, i ≠ j → b = .base (.worker i .exec) →
      (s.base.workers i).pc = .ready →
      handlerRegistered (s.base.workers i).job.task.name = true →
      (s.base.workers j).pc = .executing →
      (s.base.workers i).job.id = (s.base.workers j).job.id → False := by
    intro i j hij hb hready hreg hexec hid
    refine hnot ⟨i, j, hb, hreg, hij, hexec, hid, ?_⟩
    exact expired_of_locked hmajority hok hij (by rw [hready]; rfl) (by rw [hexec]; rfl) hid
  intro i j hij hi hj hid
  obtain ⟨hidi, hi'⟩ := executing_of_step h hi
  obtain ⟨hidj, hj'⟩ := executing_of_step h hj
  rw [hidi, hidj] at hid
  rcases hi' with hi' | ⟨hb, hready, hreg⟩
  · rcases hj' with hj' | ⟨hb, hready, hreg⟩
    · exact hexcl i j hij hi' hj' hid
    · exact hstart j i hij.symm hb hready hreg hi' hid.symm
  · rcases hj' with hj' | ⟨hb', -⟩
    · exact hstart i j hij hb hready hreg hj' hid
    · rw [hb] at hb'
      cases hb'
      exact hij rfl

/-- Starting a handler beside another leaves two executions of one job. -/
theorem not_exclusive_of_startsBeside {cfg : Config} {m : Manager} {s s' : LockSys}
    {b : LockAction} (h : lockSysStep cfg m s b = some s') (hstart : StartsBeside m s b) :
    ¬ s'.Exclusive := by
  obtain ⟨i, j, rfl, hreg, hij, hexec, hid, -⟩ := hstart
  intro hexcl
  cases lockSysStep_sound h with
  | base _ hstep =>
      have hmove := step_worker_self hstep
      have hother := step_worker_ne hstep hij.symm
      refine hexcl i j hij (hmove.pc_of_exec hreg) ?_ ?_
      · rw [hother]
        exact hexec
      · rw [hother, hmove.job_id]
        exact hid

/-- A handler that starts beside another starts with a lock of its job outlived. -/
theorem StartsBeside.lapsed {cfg : Config} {m : Manager} {s s' : LockSys} {b : LockAction}
    (h : lockSysStep cfg m s b = some s') (hstart : StartsBeside m s b) :
    StartsLapsed m s b := by
  obtain ⟨i, j, rfl, -, -, hexec, hid, hout | hout⟩ := hstart
  · cases lockSysStep_sound h with
    | base _ hstep =>
        have hready := (step_worker_self hstep).ready_of_exec
        exact ⟨i, i, rfl, by rw [hready]; rfl, rfl, hout⟩
  · exact ⟨i, j, rfl, by rw [hexec]; rfl, hid, hout⟩

/-- Take the server's lock manager over any number of nodes, and a run with distinct lock
values. At no moment of the run are two executions of one job in progress exactly when no step
starts a handler beside an execution of the same job with one of the two locks outlived. -/
theorem allStates_exclusive_iff {cfg : Config} {n : ℕ} {bs : List LockAction}
    (hnodup : (lockValues bs).Nodup) :
    AllStates (lockSysStep cfg (serverLockManager n)) LockSys.Exclusive LockSys.init bs ↔
      AllSteps (lockSysStep cfg (serverLockManager n))
        (fun s b _ => ¬ StartsBeside (serverLockManager n) s b) LockSys.init bs := by
  constructor
  · intro hall pre b post u v hbs hpre hb hstart
    refine not_exclusive_of_startsBeside hb hstart (hall (pre ++ [b]) post v ?_ ?_)
    · rw [hbs, List.append_assoc, List.singleton_append]
    · exact exec_concat_iff.mpr ⟨u, hpre, hb⟩
  · rintro hall pre post s rfl hpre
    have hinit : LockSys.init.Exclusive := by
      intro i j _ hi
      cases hi
    -- The locks are in order wherever the run takes a step, so each step keeps exclusion.
    refine exec_history (H := fun cs s => (∃ ds, pre = cs ++ ds) → s.Exclusive)
      (fun _ => hinit) ?_ hpre ⟨[], (List.append_nil _).symm⟩
    rintro cs u b v hu ih hb ⟨ds, rfl⟩
    have hcs : (lockValues cs).Nodup := by
      rw [List.append_assoc, List.append_assoc] at hnodup
      exact nodup_of_append hnodup
    refine step_exclusive (clients_lt_quorum n) (locksOk_of_exec hu hcs)
      (ih ⟨[b] ++ ds, List.append_assoc _ _ _⟩) ?_ hb
    exact hall cs b (ds ++ post) u v (by simp) hu hb

/-- **At most one execution at a time.** Take the server's lock manager over any number of
nodes, and a run with distinct lock values in which no handler starts while a worker past the
lock of its job has outlived it. At no moment of the run are two executions of one job in
progress. -/
theorem allStates_exclusive {cfg : Config} {n : ℕ} {bs : List LockAction}
    (hnodup : (lockValues bs).Nodup)
    (hall : AllSteps (lockSysStep cfg (serverLockManager n))
      (fun s b _ => ¬ StartsLapsed (serverLockManager n) s b) LockSys.init bs) :
    AllStates (lockSysStep cfg (serverLockManager n)) LockSys.Exclusive LockSys.init bs := by
  refine (allStates_exclusive_iff hnodup).mpr ?_
  intro pre b post u v hbs hpre hb hstart
  exact hall pre b post u v hbs hpre hb (hstart.lapsed hb)

/-! ### Within the first TTL -/

/-- The clock and the locks start at zero or later. -/
structure LockSys.FromZero (s : LockSys) : Prop where
  clock : 0 ≤ s.clock
  locks : ∀ i start, (s.locks i).since = some start → 0 ≤ start

/-- A step of one lock call starts no lock before zero. -/
theorem fromZero_update {s : LockSys} {i : ℕ} {base : Sys} {nodes : Nodes} {call : LockCall}
    (hzero : s.FromZero) (hcall : ∀ start, call.since = some start →
      (s.locks i).since = some start ∨ start = s.clock) :
    LockSys.FromZero
      { s with base := base, nodes := nodes, locks := Function.update s.locks i call } := by
  refine ⟨hzero.clock, ?_⟩
  intro j start
  dsimp only
  by_cases hj : j = i
  · rw [hj, Function.update_self]
    intro hstart
    rcases hcall start hstart with hold | rfl
    · exact hzero.locks i start hold
    · exact hzero.clock
  · rw [Function.update_of_ne hj]
    exact hzero.locks j start

/-- A call in `Release` has no lock to count from. -/
theorem releaseStep_since {m : Manager} {clock : Time} {nodes nodes' : Nodes}
    {resource : String} {call call' : LockCall} {act : ReleaseAct} {returned : Bool}
    (h : releaseStep m clock nodes resource call act = some (nodes', call', returned)) :
    call'.since = none := by
  rcases releaseStep_call h with ⟨value, next, rfl, -, -⟩ | ⟨rfl, -⟩ <;> rfl

/-- Every step keeps the clock and the locks from zero on. -/
theorem step_fromZero {cfg : Config} {m : Manager} (s : LockSys) (b : LockAction)
    (s' : LockSys) (hzero : s.FromZero) (h : lockSysStep cfg m s b = some s') :
    s'.FromZero := by
  have hrelease : ∀ {call : LockCall} {i : ℕ}, call.since = none → ∀ start,
      call.since = some start → (s.locks i).since = some start ∨ start = s.clock := by
    intro call i hnone start hstart
    rw [hnone] at hstart
    cases hstart
  cases lockSysStep_sound h with
  | base => exact ⟨hzero.clock, hzero.locks⟩
  | tick => exact ⟨Int.add_nonneg hzero.clock (Int.natCast_nonneg _), hzero.locks⟩
  | asked _ hacq => exact fromZero_update hzero fun _ => hacq.since
  | answered _ hacq _ => exact fromZero_update hzero fun _ => hacq.since
  | releasing _ hrel => exact fromZero_update hzero (hrelease (releaseStep_since hrel))
  | released _ hrel _ => exact fromZero_update hzero (hrelease (releaseStep_since hrel))

/-- Until the clock reaches the TTL, no lock is outlived. -/
theorem not_outlived_of_clock_lt {cfg : Config} {m : Manager} {bs : List LockAction}
    {s : LockSys} (h : exec (lockSysStep cfg m) LockSys.init bs = some s)
    (hclock : s.clock < m.cfg.ttl) (i : ℕ) : ¬ s.Outlived m i := by
  have hzero : s.FromZero := by
    refine exec_invariant step_fromZero ⟨le_refl _, fun _ _ hstart => ?_⟩ h
    cases hstart
  unfold LockSys.Outlived
  split
  · rename_i value start acquired hlock
    have hstart : 0 ≤ start := hzero.locks i start (by rw [hlock]; rfl)
    intro hle
    have httl : m.cfg.ttl ≤ start + m.cfg.ttl := Int.le_add_of_nonneg_left hstart
    exact absurd (le_trans httl hle) (not_le.mpr hclock)
  · exact not_false

/-! ### One execution and two -/

/-- A request for a pipeline that may run for as long as its query takes. -/
def pipelineRequest : EnqueueRequest where
  idempotencyKey := "report-17"
  task :=
    { id := "t1"
      name := "sql.etl"
      payload := some ("\x7b\"extract_sql\":\"SELECT sum(total) FROM orders\"," ++
        "\"target_table\":\"report\",\"target_columns\":[\"total\"]\x7d").toUTF8.toList
      retryCount := 0
      maxRetries := 3
      timeout := 0
      cronExpression := ""
      queue := "default"
      metadata := none }
  scheduledAt := none
  metadata := none

/-- The worker in slot `i` takes the lock from three nodes. -/
def takeLock (i : ℕ) (b : UInt8) : List LockAction :=
  [.acquire i (.start (sampleRandom b)), .acquire i (.setNX .answered),
    .acquire i (.setNX .answered), .acquire i (.setNX .answered), .acquire i .decide]

/-- A reconciler claims the pipeline into slot `i`, and the worker takes it to the handler,
under a lock of its own. -/
def claimAndRun (i : ℕ) (token value : UInt8) (now : Time) : List LockAction :=
  .base (claimSample i token now) ::
    (workerActs i [.submit true, .begin, .checkDue now, .allow true]).map .base ++
    takeLock i value ++ [.base (.worker i .exec)]

/-- The worker in slot `i` finds its key taken at three nodes, undoes its round, and is told to
stop while it waits for the next. -/
def refuseLock (i : ℕ) (b : UInt8) : List LockAction :=
  [.acquire i (.start (sampleRandom b)), .acquire i (.setNX .answered),
    .acquire i (.setNX .answered), .acquire i (.setNX .answered), .acquire i .decide,
    .acquire i (.undo true), .acquire i (.undo true), .acquire i (.undo true),
    .acquire i .undone, .acquire i .ctxDone]

/-- The pipeline is running when Kafka delivers another copy of it. -/
def contendedRun : List LockAction :=
  (enqueueAndPublish pipelineRequest).map .base ++ claimAndRun 0 1 10 0 ++ .tick 1000000000 ::
    (.deliver 1 0 :: workerActs 1 [.begin, .checkDue second, .allow true]).map .base ++
    refuseLock 1 11

/-- In that run the second copy is turned away by the lock. -/
theorem allStates_exclusive_contended :
    (∃ s, exec (lockSysStep ⟨.reject, 5⟩ (serverLockManager 3)) LockSys.init contendedRun =
        some s ∧ (s.base.workers 0).pc = .executing ∧ (s.base.workers 1).pc = .done) ∧
      AllStates (lockSysStep ⟨.reject, 5⟩ (serverLockManager 3)) LockSys.Exclusive
        LockSys.init contendedRun := by
  constructor
  · obtain ⟨s, hs, h⟩ := (Option.any_eq_true _ _).mp
      (show (exec (lockSysStep ⟨.reject, 5⟩ (serverLockManager 3)) LockSys.init
        contendedRun).any (fun s => decide ((s.base.workers 0).pc = .executing ∧
          (s.base.workers 1).pc = .done)) = true by decide +kernel)
    exact ⟨s, hs, of_decide_eq_true h⟩
  · refine allStates_exclusive (by decide +kernel) ?_
    intro pre b post u v hbs hpre hb
    have hclock := allSteps_of_checkSteps
      (p := fun s _ => decide (s.clock < (serverLockManager 3).cfg.ttl))
      (by decide +kernel) pre b post u v hbs hpre hb
    rintro ⟨i, j, -, -, -, hout⟩
    exact not_outlived_of_clock_lt hpre (of_decide_eq_true hclock) j hout

/-- The pipeline runs for five minutes. Its lease renewal fails once, the lease and the lock
run out, and the job is requeued, claimed, locked and run again. -/
def overlapRun : List LockAction :=
  (enqueueAndPublish pipelineRequest).map .base ++ claimAndRun 0 1 10 0 ++
    [.base (.worker 0 .renewFail), .tick (301 * 1000000000),
      .base (.requeue (toTimestamp (301 * second)) 100 [])] ++
    claimAndRun 1 2 11 (301 * second)

/-- Two executions of the pipeline are in progress at once. -/
theorem two_executions :
    ∃ s, exec (lockSysStep ⟨.reject, 5⟩ (serverLockManager 3)) LockSys.init overlapRun =
        some s ∧ ¬ s.Exclusive := by
  obtain ⟨s, hs, h⟩ := (Option.any_eq_true _ _).mp
    (show (exec (lockSysStep ⟨.reject, 5⟩ (serverLockManager 3)) LockSys.init overlapRun).any
      (fun s => decide ((s.base.workers 0).pc = .executing ∧
        (s.base.workers 1).pc = .executing ∧
        (s.base.workers 0).job.id = (s.base.workers 1).job.id)) = true by decide +kernel)
  obtain ⟨h₀, h₁, hid⟩ := of_decide_eq_true h
  exact ⟨s, hs, fun hexcl => hexcl 0 1 nofun h₀ h₁ hid⟩

end Conduit
