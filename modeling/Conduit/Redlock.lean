import Mathlib.Data.Finset.Card
import Mathlib.Data.Rat.Floor
import Mathlib.Logic.Function.Basic
import Conduit.Models

/-!
# The Lock Manager

`Manager.Acquire` and `Manager.Release`, against any number of Redis nodes. A node keeps,
for each key, a value and the instant it expires; it answers `SET NX` and the release script
one at a time. The nodes keep a key until it expires or is deleted.

A call of `Acquire` is a state machine with one step for each request to a node. A request
may get lost before it reaches the node or lose its reply on the way back; the code takes
both for a refusal.

The point of the protocol is `keys_disjoint`: a call that has collected a quorum within the
TTL has its value in a majority of the nodes, and two majorities share a node.

## Main results

* `AcquireStep.keysOk`: a call that counts a node has its value there, for a TTL from the
  start of the attempt.
* `AcquireStep.frame`, `releaseStep_frame`: no call disturbs a live key of another value.
* `keys_disjoint`: two calls do not both hold a live quorum for one key.
-/

namespace Conduit

/-- The `Config` of package `lock`. -/
structure LockConfig where
  quorum : ℤ
  ttl : Duration
  retryCount : ℤ
  retryDelay : Duration
  driftFactor : ℚ

/-- A `Manager`, with the number of its clients. -/
structure Manager where
  clients : ℕ
  cfg : LockConfig

/-- `NewManager`. -/
def newManager (clients : ℕ) (cfg : LockConfig) : Manager where
  clients := clients
  cfg :=
    { quorum := if cfg.quorum ≤ 0 then clients / 2 + 1 else cfg.quorum
      ttl := if cfg.ttl ≤ 0 then 10 * second else cfg.ttl
      retryCount := if cfg.retryCount ≤ 0 then 3 else cfg.retryCount
      retryDelay := if cfg.retryDelay ≤ 0 then second / 5 else cfg.retryDelay
      driftFactor := if cfg.driftFactor ≤ 0 then 1 / 100 else cfg.driftFactor }

/-- The manager `run` builds for the workers, over the configured Redis nodes. -/
def serverLockManager (clients : ℕ) : Manager :=
  newManager clients
    { quorum := 0
      ttl := 30 * second
      retryCount := 3
      retryDelay := second / 10
      driftFactor := 1 / 100 }

/-- The allowance for clock drift, two milliseconds added. -/
def Manager.drift (m : Manager) : Duration :=
  ⌊(m.cfg.ttl : ℚ) * m.cfg.driftFactor⌋ + second / 500

/-- How long a lock is good for after `elapsed`. -/
def Manager.validity (m : Manager) (elapsed : Duration) : Duration :=
  m.cfg.ttl - elapsed - m.drift

/-- `generateToken`, on the bytes it reads. -/
def generateToken (rand : RandomBytes) : String := String.ofList (hexEncode rand.val)

/-- The key under which a job's execution is locked. -/
def lockResource (id : String) : String := "job:exec:" ++ id

/-! ### The nodes -/

/-- A key of a node: its value and the instant it expires. -/
structure Entry where
  value : String
  expiresAt : Time
  deriving DecidableEq

/-- The keys of the nodes, by node and key. -/
abbrev Nodes := ℕ → String → Option Entry

/-- Replace one key of one node. -/
def Nodes.set (nodes : Nodes) (node : ℕ) (resource : String) (entry : Option Entry) : Nodes :=
  fun n r => if n = node ∧ r = resource then entry else nodes n r

@[simp] theorem Nodes.set_self (nodes : Nodes) (node : ℕ) (resource : String)
    (entry : Option Entry) : nodes.set node resource entry node resource = entry := by
  simp [Nodes.set]

/-- The node has a key that has not expired. -/
def Nodes.live (nodes : Nodes) (clock : Time) (node : ℕ) (resource : String) : Option Entry :=
  (nodes node resource).filter fun e => clock < e.expiresAt

/-- `SET resource value NX PX ttl` at one node. -/
def setNX (clock : Time) (ttl : Duration) (nodes : Nodes) (node : ℕ)
    (resource value : String) : Nodes × Bool :=
  match nodes.live clock node resource with
  | some _ => (nodes, false)
  | none => (nodes.set node resource (some ⟨value, clock + ttl⟩), true)

/-- The release script at one node: delete the key if it has the caller's value. -/
def releaseScript (clock : Time) (nodes : Nodes) (node : ℕ) (resource value : String) : Nodes :=
  match nodes.live clock node resource with
  | some e => if e.value = value then nodes.set node resource none else nodes
  | none => nodes

/-- A live key is found. -/
theorem live_of_lt {nodes : Nodes} {clock : Time} {node : ℕ} {resource : String} {e : Entry}
    (h : nodes node resource = some e) (hlt : clock < e.expiresAt) :
    nodes.live clock node resource = some e := by
  simp [Nodes.live, h, hlt]

/-- `SET NX` disturbs no live key. -/
theorem setNX_frame {clock : Time} {ttl : Duration} {nodes : Nodes} {node n : ℕ}
    {resource value key : String} {e : Entry} (h : nodes n key = some e)
    (hlt : clock < e.expiresAt) :
    (setNX clock ttl nodes node resource value).1 n key = some e := by
  unfold setNX
  split
  · exact h
  · rename_i hnone
    have hne : ¬ (n = node ∧ key = resource) := by
      rintro ⟨rfl, rfl⟩
      rw [live_of_lt h hlt] at hnone
      cases hnone
    simp only [Nodes.set, if_neg hne]
    exact h

/-- A successful `SET NX` leaves the caller's value for a TTL. -/
theorem setNX_true {clock : Time} {ttl : Duration} {nodes : Nodes} {node : ℕ}
    {resource value : String} (h : (setNX clock ttl nodes node resource value).2 = true) :
    (setNX clock ttl nodes node resource value).1 node resource =
      some ⟨value, clock + ttl⟩ := by
  unfold setNX at h ⊢
  split
  · rename_i hlive
    rw [hlive] at h
    cases h
  · exact Nodes.set_self _ _ _ _

/-- The release script disturbs no live key of another value. -/
theorem releaseScript_frame {clock : Time} {nodes : Nodes} {node n : ℕ}
    {resource value key : String} {e : Entry} (h : nodes n key = some e)
    (hlt : clock < e.expiresAt) (hne : e.value ≠ value) :
    releaseScript clock nodes node resource value n key = some e := by
  unfold releaseScript
  cases hlive : nodes.live clock node resource with
  | none => exact h
  | some e' =>
      dsimp only
      split
      · rename_i hvalue
        have hother : ¬ (n = node ∧ key = resource) := by
          rintro ⟨rfl, rfl⟩
          rw [live_of_lt h hlt] at hlive
          obtain rfl := Option.some.inj hlive
          exact hne hvalue
        simp only [Nodes.set, if_neg hother]
        exact h
      · exact h

/-! ### `Acquire` and `Release` -/

/-- Where a call of `Acquire`, and then of `Release`, stands. -/
inductive LockCall
  | idle
  /-- Asking the nodes, from `next` on; those in `acquired` have said yes. -/
  | setting (value : String) (attempt : ℕ) (start : Time) (next : ℕ) (acquired : List ℕ)
  /-- Undoing a partial win, from node `next` on. -/
  | undoing (value : String) (attempt : ℕ) (next : ℕ)
  /-- Waiting for `RetryDelay` before the given attempt. -/
  | waiting (value : String) (attempt : ℕ) (since : Time)
  /-- `Acquire` has returned the lock. -/
  | held (value : String) (start : Time) (acquired : List ℕ)
  /-- `Release` is under way, from node `next` on. -/
  | releasing (value : String) (next : ℕ)
  | closed

/-- The value a call uses. -/
def LockCall.value : LockCall → Option String
  | .idle => none
  | .setting value _ _ _ _ => some value
  | .undoing value _ _ => some value
  | .waiting value _ _ => some value
  | .held value _ _ => some value
  | .releasing value _ => some value
  | .closed => none

/-- The instant from which a call counts the TTL of its keys. -/
def LockCall.since : LockCall → Option Time
  | .setting _ _ start _ _ => some start
  | .held _ start _ => some start
  | _ => none

/-- What becomes of a request to a node. -/
inductive Reply
  | answered
  /-- The node runs the request; the client sees an error. -/
  | lostReply
  /-- The node never sees the request. -/
  | lost

/-- A step of `Acquire`. -/
inductive AcquireAct
  | start (rand : RandomBytes)
  | startFail
  | setNX (reply : Reply)
  | decide
  | undo (delivered : Bool)
  | undone
  | retry
  | ctxDone

/-- One step of `Acquire`: the nodes, the call, and its result once it returns. -/
def acquireStep (m : Manager) (clock : Time) (nodes : Nodes) (resource : String)
    (call : LockCall) (act : AcquireAct) : Option (Nodes × LockCall × Option Bool) :=
  match act, call with
  | .start rand, .idle => some (nodes, .setting (generateToken rand) 0 clock 0 [], none)
  | .startFail, .idle => some (nodes, .closed, some false)
  | .setNX reply, .setting value attempt start next acquired =>
    if next < m.clients then
      match reply with
      | .answered =>
        match setNX clock m.cfg.ttl nodes next resource value with
        | (nodes', true) =>
          some (nodes', .setting value attempt start (next + 1) (next :: acquired), none)
        | (nodes', false) =>
          some (nodes', .setting value attempt start (next + 1) acquired, none)
      | .lostReply =>
        some ((setNX clock m.cfg.ttl nodes next resource value).1,
          .setting value attempt start (next + 1) acquired, none)
      | .lost => some (nodes, .setting value attempt start (next + 1) acquired, none)
    else none
  | .decide, .setting value attempt start next acquired =>
    if next < m.clients then none
    else if m.cfg.quorum ≤ acquired.length ∧ 0 < m.validity (clock - start) then
      some (nodes, .held value start acquired, some true)
    else some (nodes, .undoing value attempt 0, none)
  | .undo delivered, .undoing value attempt next =>
    if next < m.clients then
      some (if delivered then releaseScript clock nodes next resource value else nodes,
        .undoing value attempt (next + 1), none)
    else none
  | .undone, .undoing value attempt next =>
    if next < m.clients then none
    else if (attempt + 1 : ℤ) < m.cfg.retryCount then
      some (nodes, .waiting value (attempt + 1) clock, none)
    else some (nodes, .closed, some false)
  | .retry, .waiting value attempt since =>
    if since + m.cfg.retryDelay ≤ clock then
      some (nodes, .setting value attempt clock 0 [], none)
    else none
  | .ctxDone, .waiting _ _ _ => some (nodes, .closed, some false)
  | _, _ => none

/-- A step of `Release`. -/
inductive ReleaseAct
  | start
  | release (delivered : Bool)
  | finish

/-- One step of `Release`: the nodes, the call, and whether it has returned. -/
def releaseStep (m : Manager) (clock : Time) (nodes : Nodes) (resource : String)
    (call : LockCall) (act : ReleaseAct) : Option (Nodes × LockCall × Bool) :=
  match act, call with
  | .start, .held value _ _ => some (nodes, .releasing value 0, false)
  | .release delivered, .releasing value next =>
    if next < m.clients then
      some (if delivered then releaseScript clock nodes next resource value else nodes,
        .releasing value (next + 1), false)
    else none
  | .finish, .releasing _ next =>
    if next < m.clients then none else some (nodes, .closed, true)
  | _, _ => none

/-- The steps of `Acquire`, one by one. -/
inductive AcquireStep (m : Manager) (clock : Time) (nodes : Nodes) (resource : String) :
    LockCall → AcquireAct → Nodes → LockCall → Option Bool → Prop
  | started {rand : RandomBytes} :
      AcquireStep m clock nodes resource .idle (.start rand) nodes
        (.setting (generateToken rand) 0 clock 0 []) none
  | startFailed : AcquireStep m clock nodes resource .idle .startFail nodes .closed (some false)
  | won {value : String} {attempt next : ℕ} {start : Time} {acquired : List ℕ}
      (hnext : next < m.clients)
      (hok : (setNX clock m.cfg.ttl nodes next resource value).2 = true) :
      AcquireStep m clock nodes resource (.setting value attempt start next acquired)
        (.setNX .answered) (setNX clock m.cfg.ttl nodes next resource value).1
        (.setting value attempt start (next + 1) (next :: acquired)) none
  | notCounted {value : String} {attempt next : ℕ} {start : Time} {acquired : List ℕ}
      {reply : Reply} {nodes' : Nodes} (hnext : next < m.clients)
      (hnodes : nodes' = nodes ∨
        nodes' = (setNX clock m.cfg.ttl nodes next resource value).1) :
      AcquireStep m clock nodes resource (.setting value attempt start next acquired)
        (.setNX reply) nodes' (.setting value attempt start (next + 1) acquired) none
  | acquired {value : String} {attempt next : ℕ} {start : Time} {acquired : List ℕ}
      (hquorum : m.cfg.quorum ≤ acquired.length) (hvalid : 0 < m.validity (clock - start)) :
      AcquireStep m clock nodes resource (.setting value attempt start next acquired) .decide
        nodes (.held value start acquired) (some true)
  | lostRound {value : String} {attempt next : ℕ} {start : Time} {acquired : List ℕ} :
      AcquireStep m clock nodes resource (.setting value attempt start next acquired) .decide
        nodes (.undoing value attempt 0) none
  | undo {value : String} {attempt next : ℕ} {delivered : Bool} :
      AcquireStep m clock nodes resource (.undoing value attempt next) (.undo delivered)
        (if delivered then releaseScript clock nodes next resource value else nodes)
        (.undoing value attempt (next + 1)) none
  | wait {value : String} {attempt next : ℕ} :
      AcquireStep m clock nodes resource (.undoing value attempt next) .undone nodes
        (.waiting value (attempt + 1) clock) none
  | exhausted {value : String} {attempt next : ℕ} :
      AcquireStep m clock nodes resource (.undoing value attempt next) .undone nodes .closed
        (some false)
  | retried {value : String} {attempt : ℕ} {since : Time} :
      AcquireStep m clock nodes resource (.waiting value attempt since) .retry nodes
        (.setting value attempt clock 0 []) none
  | ctxDone {value : String} {attempt : ℕ} {since : Time} :
      AcquireStep m clock nodes resource (.waiting value attempt since) .ctxDone nodes .closed
        (some false)

/-- Every step of `acquireStep` is one of the listed steps. -/
theorem acquireStep_sound {m : Manager} {clock : Time} {nodes nodes' : Nodes}
    {resource : String} {call call' : LockCall} {act : AcquireAct} {result : Option Bool}
    (h : acquireStep m clock nodes resource call act = some (nodes', call', result)) :
    AcquireStep m clock nodes resource call act nodes' call' result := by
  unfold acquireStep at h
  split at h
  case h_1 => cases h; exact .started
  case h_2 => cases h; exact .startFailed
  case h_3 reply value attempt start next acquired =>
    split at h
    · rename_i hnext
      split at h
      · split at h
        · rename_i nodes'' hset
          cases h
          have hwon : AcquireStep m clock nodes resource
              (.setting value attempt start next acquired) (.setNX .answered) _ _ none :=
            .won hnext (by rw [hset])
          rwa [hset] at hwon
        · rename_i nodes'' hset
          cases h
          exact .notCounted hnext (.inr (by rw [hset]))
      · cases h
        exact .notCounted hnext (.inr rfl)
      · cases h
        exact .notCounted hnext (.inl rfl)
    · cases h
  case h_4 =>
    split at h
    · cases h
    · split at h
      · rename_i hwin
        cases h
        exact .acquired hwin.1 hwin.2
      · cases h
        exact .lostRound
  case h_5 =>
    split at h
    · cases h
      exact .undo
    · cases h
  case h_6 =>
    split at h
    · cases h
    · split at h <;> cases h
      · exact .wait
      · exact .exhausted
  case h_7 =>
    split at h
    · cases h
      exact .retried
    · cases h
  case h_8 => cases h; exact .ctxDone
  case h_9 => cases h

/-! ### What a call holds -/

/-- The nodes a call counts have its value, for a TTL from the start of the attempt. -/
def LockCall.KeysOk (ttl : Duration) (clock : Time) (nodes : Nodes) (resource : String) :
    LockCall → Prop
  | .setting value _ start _ acquired | .held value start acquired =>
    clock < start + ttl → ∀ n ∈ acquired, ∃ e, nodes n resource = some e ∧
      e.value = value ∧ start + ttl ≤ e.expiresAt
  | _ => True

/-- A call counts each node once; a lock that is held has a quorum. -/
def LockCall.CountOk (m : Manager) (clock : Time) : LockCall → Prop
  | .setting _ _ start next acquired =>
    start ≤ clock ∧ next ≤ m.clients ∧ acquired.Nodup ∧ ∀ n ∈ acquired, n < next
  | .held _ _ acquired =>
    m.cfg.quorum ≤ acquired.length ∧ acquired.Nodup ∧ ∀ n ∈ acquired, n < m.clients
  | _ => True

/-- Every live key whose value is not the given one is left alone. -/
def Undisturbed (clock : Time) (nodes nodes' : Nodes) (value : Option String) : Prop :=
  ∀ n key e, nodes n key = some e → clock < e.expiresAt → some e.value ≠ value →
    nodes' n key = some e

/-- What others leave alone, a call keeps. -/
theorem LockCall.KeysOk.frame {ttl : Duration} {clock : Time} {nodes nodes' : Nodes}
    {resource : String} {call : LockCall} {value : Option String}
    (h : call.KeysOk ttl clock nodes resource) (hframe : Undisturbed clock nodes nodes' value)
    (hne : ∀ v, call.value = some v → some v ≠ value) :
    call.KeysOk ttl clock nodes' resource := by
  have hkeep : ∀ (v : String) (start : Time) (acquired : List ℕ), some v ≠ value →
      (clock < start + ttl → ∀ n ∈ acquired, ∃ e, nodes n resource = some e ∧
        e.value = v ∧ start + ttl ≤ e.expiresAt) →
      clock < start + ttl → ∀ n ∈ acquired, ∃ e, nodes' n resource = some e ∧
        e.value = v ∧ start + ttl ≤ e.expiresAt := by
    intro v start acquired hv hkeys hlt n hn
    obtain ⟨e, he, rfl, hexp⟩ := hkeys hlt n hn
    exact ⟨e, hframe n resource e he (lt_of_lt_of_le hlt hexp) hv, rfl, hexp⟩
  cases call with
  | setting v attempt start next acquired => exact hkeep v start acquired (hne v rfl) h
  | held v start acquired => exact hkeep v start acquired (hne v rfl) h
  | _ => trivial

/-- Time only takes away. -/
theorem LockCall.KeysOk.tick {ttl : Duration} {clock clock' : Time} {nodes : Nodes}
    {resource : String} {call : LockCall} (h : call.KeysOk ttl clock nodes resource)
    (hle : clock ≤ clock') : call.KeysOk ttl clock' nodes resource := by
  cases call with
  | setting v attempt start next acquired => exact fun hlt => h (lt_of_le_of_lt hle hlt)
  | held v start acquired => exact fun hlt => h (lt_of_le_of_lt hle hlt)
  | _ => trivial

theorem LockCall.CountOk.tick {m : Manager} {clock clock' : Time} {call : LockCall}
    (h : call.CountOk m clock) (hle : clock ≤ clock') : call.CountOk m clock' := by
  cases call with
  | setting v attempt start next acquired => exact ⟨le_trans h.1 hle, h.2⟩
  | _ => exact h

section Step

variable {m : Manager} {clock : Time} {nodes nodes' : Nodes} {resource : String}
  {call call' : LockCall} {act : AcquireAct} {result : Option Bool}

/-- A release leaves live keys of other values alone, delivered or not. -/
theorem undisturbed_release (clock : Time) (nodes : Nodes) (node : ℕ) (resource value : String)
    (delivered : Bool) :
    Undisturbed clock nodes
      (if delivered then releaseScript clock nodes node resource value else nodes)
      (some value) := by
  intro n key e he hlt hne
  split
  · exact releaseScript_frame he hlt fun heq => hne (congrArg some heq)
  · exact he

/-- No step of `Acquire` disturbs a live key of another value. -/
theorem AcquireStep.frame (h : AcquireStep m clock nodes resource call act nodes' call' result) :
    Undisturbed clock nodes nodes' call.value := by
  cases h with
  | won => exact fun n key e he hlt _ => setNX_frame he hlt
  | notCounted _ hnodes =>
      rcases hnodes with rfl | rfl
      · exact fun _ _ _ he _ _ => he
      · exact fun n key e he hlt _ => setNX_frame he hlt
  | undo => exact undisturbed_release _ _ _ _ _ _
  | _ => exact fun _ _ _ he _ _ => he

/-- The keys a call counts survive its own requests to other nodes. -/
theorem keysOk_setNX {ttl : Duration} {value : String} {attempt next node : ℕ} {start : Time}
    {acquired : List ℕ}
    (h : (LockCall.setting value attempt start next acquired).KeysOk ttl clock nodes resource) :
    (LockCall.setting value attempt start (next + 1) acquired).KeysOk ttl clock
      (setNX clock ttl nodes node resource value).1 resource := by
  intro hlt n hn
  obtain ⟨e, he, hvalue, hexp⟩ := h hlt n hn
  exact ⟨e, setNX_frame he (lt_of_lt_of_le hlt hexp), hvalue, hexp⟩

/-- A call counts a node only when the node has its value for a TTL. -/
theorem AcquireStep.keysOk
    (h : AcquireStep m clock nodes resource call act nodes' call' result)
    (hkeys : call.KeysOk m.cfg.ttl clock nodes resource) (hcount : call.CountOk m clock) :
    call'.KeysOk m.cfg.ttl clock nodes' resource := by
  cases h with
  | started => exact fun _ n hn => absurd hn List.not_mem_nil
  | retried => exact fun _ n hn => absurd hn List.not_mem_nil
  | @won value attempt next start acquired hnext hok =>
      intro hlt n hn
      rcases List.mem_cons.mp hn with rfl | hn
      · exact ⟨_, setNX_true hok, rfl, Int.add_le_add_right hcount.1 _⟩
      · exact keysOk_setNX hkeys hlt n hn
  | notCounted _ hnodes =>
      rcases hnodes with rfl | rfl
      · exact hkeys
      · exact keysOk_setNX hkeys
  | acquired => exact hkeys
  | _ => trivial

/-- A call counts each node once, and returns a lock only with a quorum. -/
theorem AcquireStep.countOk
    (h : AcquireStep m clock nodes resource call act nodes' call' result)
    (hcount : call.CountOk m clock) : call'.CountOk m clock := by
  have hnew : ∀ n ∈ ([] : List ℕ), n < 0 := fun _ hn => absurd hn List.not_mem_nil
  cases h with
  | started => exact ⟨le_refl _, Nat.zero_le _, List.nodup_nil, hnew⟩
  | retried => exact ⟨le_refl _, Nat.zero_le _, List.nodup_nil, hnew⟩
  | @won value attempt next start acquired hnext =>
      obtain ⟨hstart, -, hnodup, hlt⟩ := hcount
      have hfresh : next ∉ acquired := fun hn => lt_irrefl _ (hlt _ hn)
      refine ⟨hstart, hnext, List.nodup_cons.mpr ⟨hfresh, hnodup⟩, ?_⟩
      intro n hn
      rcases List.mem_cons.mp hn with rfl | hn
      · exact Nat.lt_succ_self _
      · exact Nat.lt_succ_of_lt (hlt n hn)
  | notCounted hnext =>
      obtain ⟨hstart, -, hnodup, hlt⟩ := hcount
      exact ⟨hstart, hnext, hnodup, fun n hn => Nat.lt_succ_of_lt (hlt n hn)⟩
  | acquired hquorum =>
      obtain ⟨-, hle, hnodup, hlt⟩ := hcount
      exact ⟨hquorum, hnodup, fun n hn => lt_of_lt_of_le (hlt n hn) hle⟩
  | _ => trivial

/-- A call keeps its value until it returns; only its start draws one. -/
theorem AcquireStep.value (h : AcquireStep m clock nodes resource call act nodes' call' result) :
    call'.value = call.value ∨ call'.value = none ∨
      ∃ rand, act = .start rand ∧ call'.value = some (generateToken rand) := by
  cases h with
  | started => exact .inr (.inr ⟨_, rfl, rfl⟩)
  | startFailed => exact .inr (.inl rfl)
  | exhausted => exact .inr (.inl rfl)
  | ctxDone => exact .inr (.inl rfl)
  | _ => exact .inl rfl

/-- A call counts the TTL of its keys from where it did before the step, or from now. -/
theorem AcquireStep.since (h : AcquireStep m clock nodes resource call act nodes' call' result)
    {start : Time} (hstart : call'.since = some start) :
    call.since = some start ∨ start = clock := by
  cases h with
  | started => exact .inr (Option.some.inj hstart).symm
  | retried => exact .inr (Option.some.inj hstart).symm
  | won => exact .inl hstart
  | notCounted => exact .inl hstart
  | acquired => exact .inl hstart
  | _ => cases hstart

end Step

/-- No step of `Release` disturbs a live key of another value. -/
theorem releaseStep_frame {m : Manager} {clock : Time} {nodes nodes' : Nodes}
    {resource : String} {call call' : LockCall} {act : ReleaseAct} {returned : Bool}
    (h : releaseStep m clock nodes resource call act = some (nodes', call', returned)) :
    Undisturbed clock nodes nodes' call.value := by
  unfold releaseStep at h
  split at h
  · cases h
    exact fun _ _ _ he _ _ => he
  · split at h
    · cases h
      exact undisturbed_release _ _ _ _ _ _
    · cases h
  · split at h
    · cases h
    · cases h
      exact fun _ _ _ he _ _ => he
  · cases h

/-- `Release` leaves a call that counts no node, under its value or none. -/
theorem releaseStep_call {m : Manager} {clock : Time} {nodes nodes' : Nodes}
    {resource : String} {call call' : LockCall} {act : ReleaseAct} {returned : Bool}
    (h : releaseStep m clock nodes resource call act = some (nodes', call', returned)) :
    (∃ value next, call' = .releasing value next ∧ call.value = some value ∧
        returned = false) ∨
      call' = .closed ∧ returned = true := by
  unfold releaseStep at h
  split at h
  · cases h
    exact .inl ⟨_, _, rfl, rfl, rfl⟩
  · split at h
    · cases h
      exact .inl ⟨_, _, rfl, rfl, rfl⟩
    · cases h
  · split at h
    · cases h
    · cases h
      exact .inr ⟨rfl, rfl⟩
  · cases h

/-- The value of a `Release` call is its old one. -/
theorem releaseStep_value {m : Manager} {clock : Time} {nodes nodes' : Nodes}
    {resource : String} {call call' : LockCall} {act : ReleaseAct} {returned : Bool}
    (h : releaseStep m clock nodes resource call act = some (nodes', call', returned))
    {value : String} (hvalue : call'.value = some value) : call.value = some value := by
  rcases releaseStep_call h with ⟨value', next, rfl, hold, -⟩ | ⟨rfl, -⟩
  · exact hold.trans hvalue
  · cases hvalue

/-- A call in `Release` counts no node. -/
theorem releaseStep_trivial {m : Manager} {clock : Time} {nodes nodes' : Nodes}
    {resource : String} {call call' : LockCall} {act : ReleaseAct} {returned : Bool}
    (h : releaseStep m clock nodes resource call act = some (nodes', call', returned)) :
    call'.KeysOk m.cfg.ttl clock nodes' resource ∧ call'.CountOk m clock := by
  rcases releaseStep_call h with ⟨value', next, rfl, -, -⟩ | ⟨rfl, -⟩ <;> exact ⟨trivial, trivial⟩

/-! ### Majorities -/

/-- The server's quorum is a majority. -/
theorem clients_lt_quorum (clients : ℕ) :
    (clients : ℤ) < 2 * (serverLockManager clients).cfg.quorum := by
  simp only [serverLockManager, newManager]
  omega

/-- **Two calls do not both hold a live quorum** for one key. -/
theorem keys_disjoint {m : Manager} (hmajority : (m.clients : ℤ) < 2 * m.cfg.quorum)
    {clock : Time} {nodes : Nodes} {resource value value' : String} {start start' : Time}
    {acquired acquired' : List ℕ} (hne : value ≠ value')
    (hcount : (LockCall.held value start acquired).CountOk m clock)
    (hcount' : (LockCall.held value' start' acquired').CountOk m clock)
    (hkeys : (LockCall.held value start acquired).KeysOk m.cfg.ttl clock nodes resource)
    (hkeys' : (LockCall.held value' start' acquired').KeysOk m.cfg.ttl clock nodes resource)
    (hlive : clock < start + m.cfg.ttl) (hlive' : clock < start' + m.cfg.ttl) : False := by
  obtain ⟨hquorum, hnodup, hlt⟩ := hcount
  obtain ⟨hquorum', hnodup', hlt'⟩ := hcount'
  have hsub : acquired.toFinset ⊆ Finset.range m.clients := fun n hn =>
    Finset.mem_range.mpr (hlt n (List.mem_toFinset.mp hn))
  have hsub' : acquired'.toFinset ⊆ Finset.range m.clients := fun n hn =>
    Finset.mem_range.mpr (hlt' n (List.mem_toFinset.mp hn))
  have hcard : (Finset.range m.clients).card <
      acquired.toFinset.card + acquired'.toFinset.card := by
    rw [Finset.card_range, List.toFinset_card_of_nodup hnodup,
      List.toFinset_card_of_nodup hnodup']
    omega
  obtain ⟨n, hn⟩ := Finset.inter_nonempty_of_card_lt_card_add_card hsub hsub' hcard
  rw [Finset.mem_inter, List.mem_toFinset, List.mem_toFinset] at hn
  obtain ⟨e, he, hvalue, -⟩ := hkeys hlive n hn.1
  obtain ⟨e', he', hvalue', -⟩ := hkeys' hlive' n hn.2
  rw [he] at he'
  obtain rfl := Option.some.inj he'
  exact hne (hvalue.symm.trans hvalue')

end Conduit
