import Conduit.Redlock
import Conduit.Transition

/-!
# The Expiry of a Lock

A call of `Acquire` reads its clock three times in an attempt: at its start, after the last node
has answered, and once more for the `Expiry` of the lock it returns. What is left of the TTL is
computed from the first two readings and added to the third. So a pause between the last two
moves the expiry, and once it is longer than the allowance for drift, the lock outlives the keys
it rests on.

A run here is one call of `Acquire` against the nodes, with the clock going on at any time and
requests of other calls, under other values, in between.

## Main results

* `drift_surjective`: the drift of a configuration can be any amount from two milliseconds on.
* `lockRun_ok_of_exec`: what holds along every run.
* `expirySafe_iff`: the expiry is no later than a TTL after the start of the attempt exactly when
  the pause is no longer than the drift.
-/

namespace Conduit

open Transition

/-- `lock.Lock`. -/
structure Lock where
  resource : String
  value : String
  expiry : Time
  deriving DecidableEq

/-- A call of `Acquire`, with the nodes it talks to. -/
structure LockRun where
  clock : Time
  nodes : Nodes
  call : LockCall
  /-- The reading `time.Since(start)` is taken from, once a quorum is found. -/
  measured : Option Time
  /-- The lock that is returned, and the reading its `Expiry` is computed from. -/
  returned : Option (Time × Lock)

/-- Before the call. -/
def LockRun.init (clock : Time) (nodes : Nodes) : LockRun := ⟨clock, nodes, .idle, none, none⟩

/-- What happens in a run. -/
inductive LockRunAct
  /-- Time passes. -/
  | tick (d : ℕ)
  | acquire (act : AcquireAct)
  /-- `Acquire` builds the lock and returns it. -/
  | stamp
  /-- Another call sends `SET NX` to a node. -/
  | otherSet (node : ℕ) (key value : String) (ttl : Duration)
  /-- Another call runs the release script at a node. -/
  | otherRelease (node : ℕ) (key value : String)

/-- One step of a run. Other calls use other values. -/
def lockRunStep (m : Manager) (resource : String) (s : LockRun) : LockRunAct → Option LockRun
  | .tick d => some { s with clock := s.clock + d }
  | .acquire act =>
    (acquireStep m s.clock s.nodes resource s.call act).map fun (nodes, call, result) =>
      { s with
        nodes := nodes
        call := call
        measured := if result = some true then some s.clock else s.measured }
  | .stamp =>
    match s.call, s.measured, s.returned with
    | .held value start _, some measured, none =>
      some { s with
        returned := some (s.clock, ⟨resource, value, s.clock + m.validity (measured - start)⟩) }
    | _, _, _ => none
  | .otherSet node key value ttl =>
    if s.call.value = some value then none
    else some { s with nodes := (setNX s.clock ttl s.nodes node key value).1 }
  | .otherRelease node key value =>
    if s.call.value = some value then none
    else some { s with nodes := releaseScript s.clock s.nodes node key value }

/-- The steps of a run, one by one. -/
inductive LockRunStep (m : Manager) (resource : String) (s : LockRun) : LockRunAct → LockRun → Prop
  | tick {d : ℕ} : LockRunStep m resource s (.tick d) { s with clock := s.clock + d }
  | acquire {act : AcquireAct} {nodes : Nodes} {call : LockCall} {result : Option Bool}
      (h : AcquireStep m s.clock s.nodes resource s.call act nodes call result) :
      LockRunStep m resource s (.acquire act)
        { s with
          nodes := nodes
          call := call
          measured := if result = some true then some s.clock else s.measured }
  | stamp {value : String} {start measured : Time} {acquired : List ℕ}
      (hcall : s.call = .held value start acquired) (hmeasured : s.measured = some measured) :
      LockRunStep m resource s .stamp
        { s with
          returned := some (s.clock, ⟨resource, value, s.clock + m.validity (measured - start)⟩) }
  | other {act : LockRunAct} {nodes : Nodes} {value : String}
      (hframe : Undisturbed s.clock s.nodes nodes (some value))
      (hvalue : s.call.value ≠ some value) :
      LockRunStep m resource s act { s with nodes := nodes }

/-- Every step of `lockRunStep` is one of the listed steps. -/
theorem lockRunStep_sound {m : Manager} {resource : String} {s s' : LockRun} {act : LockRunAct}
    (h : lockRunStep m resource s act = some s') : LockRunStep m resource s act s' := by
  cases act with
  | tick d =>
      obtain rfl := Option.some.inj h
      exact .tick
  | acquire act =>
      obtain ⟨⟨nodes, call, result⟩, hstep, rfl⟩ := Option.map_eq_some_iff.mp h
      exact .acquire (acquireStep_sound hstep)
  | stamp =>
      simp only [lockRunStep] at h
      split at h
      · rename_i hcall hmeasured _
        obtain rfl := Option.some.inj h
        exact .stamp hcall hmeasured
      · cases h
  | otherSet node key value ttl =>
      obtain ⟨hvalue, h⟩ := Option.ite_none_left_eq_some.mp h
      obtain rfl := Option.some.inj h
      exact .other (fun n k e he hlt _ => setNX_frame he hlt) hvalue
  | otherRelease node key value =>
      obtain ⟨hvalue, h⟩ := Option.ite_none_left_eq_some.mp h
      obtain rfl := Option.some.inj h
      exact .other (undisturbed_release _ _ _ _ _ true) hvalue

/-! ### What holds along a run -/

/-- What the readings of a run have to do with one another, and with the keys. -/
structure LockRun.Ok (m : Manager) (resource : String) (s : LockRun) : Prop where
  keys : s.call.KeysOk m.cfg.ttl s.clock s.nodes resource
  count : s.call.CountOk m s.clock
  measured : ∀ t, s.measured = some t →
    t ≤ s.clock ∧ ∃ value start acquired, s.call = .held value start acquired ∧ start ≤ t
  returned : ∀ now lock, s.returned = some (now, lock) →
    ∃ value start acquired measured, s.call = .held value start acquired ∧
      s.measured = some measured ∧ measured ≤ now ∧
      lock = ⟨resource, value, now + m.validity (measured - start)⟩

section Run

variable {m : Manager} {resource : String} {s s' : LockRun} {act : LockRunAct}

/-- A call that succeeds has just asked the last node. -/
theorem AcquireStep.of_won {clock : Time} {nodes nodes' : Nodes} {call call' : LockCall}
    {act : AcquireAct}
    (h : AcquireStep m clock nodes resource call act nodes' call' (some true)) :
    ∃ value attempt start next acquired, call = .setting value attempt start next acquired ∧
      call' = .held value start acquired := by
  cases h with
  | acquired => exact ⟨_, _, _, _, _, rfl, rfl⟩

/-- A call that goes on has measured nothing yet. -/
theorem LockRun.Ok.not_held (h : s.Ok m resource)
    (hcall : ∀ value start acquired, s.call ≠ .held value start acquired) :
    s.measured = none ∧ s.returned = none := by
  constructor
  · cases hmeasured : s.measured with
    | none => rfl
    | some t =>
        obtain ⟨-, value, start, acquired, hheld, -⟩ := h.measured t hmeasured
        exact absurd hheld (hcall _ _ _)
  · cases hreturned : s.returned with
    | none => rfl
    | some r =>
        obtain ⟨value, start, acquired, -, hheld, -⟩ := h.returned r.1 r.2 hreturned
        exact absurd hheld (hcall _ _ _)

/-- Every step keeps it. -/
theorem LockRunStep.ok (h : LockRunStep m resource s act s') (hs : s.Ok m resource) :
    s'.Ok m resource := by
  cases h with
  | @tick d =>
      have hle : s.clock ≤ s.clock + d := by
        unfold Time
        omega
      refine ⟨hs.keys.tick hle, hs.count.tick hle, fun t ht => ?_, hs.returned⟩
      obtain ⟨hclock, hheld⟩ := hs.measured t ht
      exact ⟨le_trans hclock hle, hheld⟩
  | @acquire act nodes call result h =>
      have hkeys := h.keysOk hs.keys hs.count
      have hcount := h.countOk hs.count
      have hnone : s.measured = none ∧ s.returned = none := by
        refine hs.not_held fun value start acquired hheld => ?_
        rw [hheld] at h
        cases h
      refine ⟨hkeys, hcount, fun t ht => ?_, fun now lock hlock => ?_⟩
      · dsimp only at ht
        split at ht
        · rename_i hwon
          obtain rfl := Option.some.inj ht
          subst hwon
          obtain ⟨value, attempt, start, next, acquired, hsetting, hheld⟩ := h.of_won
          have hstart := hs.count
          rw [hsetting] at hstart
          exact ⟨le_refl _, value, start, acquired, hheld, hstart.1⟩
        · rw [hnone.1] at ht
          cases ht
      · rw [hnone.2] at hlock
        cases hlock
  | @stamp value start measured acquired hcall hmeasured =>
      refine ⟨hs.keys, hs.count, hs.measured, fun now lock hlock => ?_⟩
      obtain ⟨rfl, rfl⟩ := Prod.mk.inj (Option.some.inj hlock)
      exact ⟨value, start, acquired, measured, hcall, hmeasured,
        (hs.measured measured hmeasured).1, rfl⟩
  | @other act nodes value hframe hvalue =>
      refine ⟨hs.keys.frame hframe fun v hv => ?_, hs.count, hs.measured, hs.returned⟩
      rw [← hv]
      exact hvalue

/-- **Along every run** the readings do not go back, and the nodes that were counted keep their
keys. -/
theorem lockRun_ok_of_exec {clock : Time} {nodes : Nodes} {as : List LockRunAct}
    (h : exec (lockRunStep m resource) (.init clock nodes) as = some s) : s.Ok m resource := by
  refine exec_invariant (I := LockRun.Ok m resource) ?_ ?_ h
  · exact fun s act s' hs ha => (lockRunStep_sound ha).ok hs
  · exact ⟨trivial, trivial, nofun, nofun⟩

end Run

/-- The drift of a configuration can be any amount from two milliseconds on. -/
theorem drift_surjective (m : Manager) (httl : 0 < m.cfg.ttl) {d : Duration}
    (hd : second / 500 ≤ d) :
    ∃ factor : ℚ, 0 ≤ factor ∧
      ({ m with cfg := { m.cfg with driftFactor := factor } } : Manager).drift = d := by
  have hne : (m.cfg.ttl : ℚ) ≠ 0 := Int.cast_ne_zero.mpr (ne_of_gt httl)
  refine ⟨((d - second / 500 : ℤ) : ℚ) / (m.cfg.ttl : ℚ), ?_, ?_⟩
  · exact div_nonneg (Int.cast_nonneg (Int.sub_nonneg.mpr hd)) (Int.cast_nonneg (le_of_lt httl))
  · rw [Manager.drift, mul_div_cancel₀ _ hne, Int.floor_intCast]
    exact Int.sub_add_cancel d _

/-! ### Safety -/

/-- The lock that is returned expires no later than a TTL after the start of the attempt. -/
def ExpirySafe (m : Manager) (s : LockRun) : Prop :=
  ∀ now lock value start acquired, s.returned = some (now, lock) →
    s.call = .held value start acquired → lock.expiry ≤ start + m.cfg.ttl

/-- Between the last two readings of the clock there is no more than the drift. -/
def ShortPause (m : Manager) (s : LockRun) : Prop :=
  ∀ measured now lock, s.measured = some measured → s.returned = some (now, lock) →
    now - measured ≤ m.drift

/-- The expiry, by the three readings. -/
theorem expiry_le_iff (m : Manager) (start measured now : Time) :
    now + m.validity (measured - start) ≤ start + m.cfg.ttl ↔ now - measured ≤ m.drift := by
  unfold Manager.validity Time Duration
  omega

/-- **The expiry of a lock** is no later than a TTL after the start of the attempt if and only if
there is no more than the drift between the last two readings of the clock. If so, the nodes that
were counted have the key at least until then. -/
theorem expirySafe_iff (m : Manager) (resource : String) (clock : Time) (nodes : Nodes)
    (as : List LockRunAct) (s : LockRun)
    (h : exec (lockRunStep m resource) (.init clock nodes) as = some s) :
    (ExpirySafe m s ↔ ShortPause m s) ∧
      (ShortPause m s → ∀ now lock value start acquired, s.returned = some (now, lock) →
        s.call = .held value start acquired → s.clock < start + m.cfg.ttl →
          ∀ n ∈ acquired, ∃ e, s.nodes n resource = some e ∧ e.value = lock.value ∧
            lock.expiry ≤ e.expiresAt) := by
  have hok := lockRun_ok_of_exec h
  have hsafe : ExpirySafe m s ↔ ShortPause m s := by
    constructor
    · intro hsafe measured now lock hmeasured hreturned
      obtain ⟨value, start, acquired, measured', hcall, hmeasured', -, rfl⟩ :=
        hok.returned now lock hreturned
      obtain rfl := Option.some.inj (hmeasured.symm.trans hmeasured')
      exact (expiry_le_iff _ _ _ _).mp (hsafe now _ value start acquired hreturned hcall)
    · intro hpause now lock value start acquired hreturned hcall
      obtain ⟨value', start', acquired', measured, hcall', hmeasured, -, rfl⟩ :=
        hok.returned now lock hreturned
      rw [hcall] at hcall'
      obtain ⟨rfl, rfl, rfl⟩ := LockCall.held.inj hcall'
      exact (expiry_le_iff _ _ _ _).mpr (hpause measured now _ hmeasured hreturned)
  refine ⟨hsafe, fun hpause now lock value start acquired hreturned hcall hlive n hn => ?_⟩
  obtain ⟨value', start', acquired', measured, hcall', -, -, hlock⟩ :=
    hok.returned now lock hreturned
  have hkeys := hok.keys
  rw [hcall] at hcall' hkeys
  obtain ⟨rfl, rfl, rfl⟩ := LockCall.held.inj hcall'
  obtain ⟨e, he, hvalue, hexpires⟩ := hkeys hlive n hn
  refine ⟨e, he, by rw [hvalue, hlock], ?_⟩
  exact le_trans (hsafe.mpr hpause now lock value start acquired hreturned hcall) hexpires

/-- A manager of one node, with a TTL of ten seconds and one percent of it for drift. -/
def oneNode : Manager := newManager 1 ⟨0, 0, 0, 0, 0⟩

/-- The node grants the key, and there is a pause before the lock is returned. -/
def pausedRun (pause : ℕ) : List LockRunAct :=
  [.acquire (.start (sampleRandom 7)), .acquire (.setNX .answered), .acquire .decide,
    .tick pause, .stamp]

/-- With a pause of 50 milliseconds the expiry is safe. -/
theorem expirySafe_pausedRun :
    ∃ s, exec (lockRunStep oneNode "job") (.init 0 fun _ _ => none) (pausedRun 50000000) = some s ∧
      s.returned.isSome = true ∧ ExpirySafe oneNode s := by
  obtain ⟨s, hs, hcheck⟩ := (Option.any_eq_true _ _).mp
    (show (exec (lockRunStep oneNode "job") (.init 0 fun _ _ => none) (pausedRun 50000000)).any
      (fun s => s.measured.any (· = 0) && s.returned.any fun r => r.1 = 50000000) = true by
        decide +kernel)
  obtain ⟨hmeasured, hreturned⟩ := Bool.and_eq_true_iff.mp hcheck
  obtain ⟨t, ht, hzero⟩ := (Option.any_eq_true _ _).mp hmeasured
  obtain ⟨r, hr, hnow⟩ := (Option.any_eq_true _ _).mp hreturned
  refine ⟨s, hs, by rw [hr]; rfl, (expirySafe_iff _ _ _ _ _ _ hs).1.mpr ?_⟩
  intro measured now lock hm hn
  rw [ht] at hm
  rw [hr] at hn
  obtain rfl := Option.some.inj hm
  obtain rfl := Option.some.inj hn
  obtain rfl : now = 50000000 := of_decide_eq_true hnow
  obtain rfl : t = 0 := of_decide_eq_true hzero
  decide +kernel

/-- The lock that is returned expires after the key. -/
def LockRun.outlives (m : Manager) (s : LockRun) : Bool :=
  match s.call, s.returned with
  | .held _ start _, some (_, lock) => start + m.cfg.ttl < lock.expiry
  | _, _ => false

/-- With a pause of a second the lock outlives the key. -/
theorem not_expirySafe_pausedRun :
    ∃ s, exec (lockRunStep oneNode "job") (.init 0 fun _ _ => none) (pausedRun 1000000000) =
      some s ∧ ¬ ExpirySafe oneNode s := by
  obtain ⟨s, hs, hoverdue⟩ := (Option.any_eq_true _ _).mp
    (show (exec (lockRunStep oneNode "job") (.init 0 fun _ _ => none)
      (pausedRun 1000000000)).any (LockRun.outlives oneNode) = true by decide +kernel)
  refine ⟨s, hs, fun hsafe => ?_⟩
  unfold LockRun.outlives at hoverdue
  split at hoverdue
  · rename_i value start acquired now lock hcall hreturned
    have hle := hsafe now lock value start acquired hreturned hcall
    exact absurd (of_decide_eq_true hoverdue) (not_lt.mpr hle)
  · cases hoverdue

end Conduit
