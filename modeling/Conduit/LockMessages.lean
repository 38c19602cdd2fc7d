import Conduit.Mutex

/-!
# Lock Commands as Messages

The calls of `Acquire` and `Release` once more, now with every command to a node as a message.
A caller sends a command and waits for its reply, or gives up on it; the message may reach the
node later, in any order with the others, or never.

All attempts of one `Acquire` use one token, and the release script tells keys apart by their
token only. A clean-up of one attempt that is still under way can therefore delete the key
that a later attempt has set. It does not when no command that sets the key overtakes a clean-up
of an earlier attempt of its call, as `NoOvertaking` puts it.

## Main results

* `inOrder_of_exec`: without overtaking, no clean-up under way is older than the key it will
  find.
* `sparesLater_of_noOvertaking`: without overtaking, a clean-up does not undo a later attempt.
* `exists_exec_of_lockNet`: calls whose commands take effect while the caller waits are
  calls of this system.
-/

namespace Conduit

open Transition

/-- What a command is for: to take the key in an attempt, to clean up after it, or to give
the lock back. -/
inductive Purpose
  | set (attempt : ℕ)
  | undo (attempt : ℕ)
  | release
  deriving DecidableEq

/-- A command of a call to a node. -/
structure LockMessage where
  node : ℕ
  call : ℕ
  purpose : Purpose
  value : String
  deriving DecidableEq

/-- The nodes, the calls on one key, and the messages between them. -/
structure LockMessages where
  clock : Time
  nodes : Nodes
  calls : ℕ → LockCall
  /-- The command a call waits for. -/
  awaiting : ℕ → Option LockMessage
  /-- The commands under way. -/
  flight : List LockMessage
  /-- The commands that were run, with the answer of the node. -/
  replies : List (LockMessage × Bool)
  /-- The call and the attempt that set the key of a node last. -/
  setBy : ℕ → Option (ℕ × ℕ)
  /-- The attempt in which a call won its lock. -/
  won : ℕ → Option ℕ

/-- No key set, no call made, nothing sent. -/
def LockMessages.init : LockMessages where
  clock := 0
  nodes _ _ := none
  calls _ := .idle
  awaiting _ := none
  flight := []
  replies := []
  setBy _ := none
  won _ := none

/-- The command that a call sends next. -/
def LockCall.command (m : Manager) (i : ℕ) : LockCall → Option LockMessage
  | .setting value attempt _ next _ =>
    if next < m.clients then some ⟨next, i, .set attempt, value⟩ else none
  | .undoing value attempt next =>
    if next < m.clients then some ⟨next, i, .undo attempt, value⟩ else none
  | .releasing value next =>
    if next < m.clients then some ⟨next, i, .release, value⟩ else none
  | .idle | .waiting _ _ _ | .held _ _ _ | .closed => none

/-- The call goes on to the next node; `ok` is whether the node has set the key. -/
def LockCall.replied (ok : Bool) : LockCall → LockCall
  | .setting value attempt start next acquired =>
    .setting value attempt start (next + 1) (if ok then next :: acquired else acquired)
  | .undoing value attempt next => .undoing value attempt (next + 1)
  | .releasing value next => .releasing value (next + 1)
  | call => call

/-- The attempt a call is in. -/
def LockCall.attempt : LockCall → Option ℕ
  | .setting _ attempt _ _ _ | .undoing _ attempt _ | .waiting _ attempt _ => some attempt
  | .idle | .held _ _ _ | .releasing _ _ | .closed => none

/-- The node runs a command. -/
def LockMessage.run (m : Manager) (clock : Time) (nodes : Nodes) (resource : String)
    (msg : LockMessage) : Nodes × Bool :=
  match msg.purpose with
  | .set _ => setNX clock m.cfg.ttl nodes msg.node resource msg.value
  | .undo _ | .release => (releaseScript clock nodes msg.node resource msg.value, true)

/-- Who has set the keys, after a command and its answer. -/
def LockMessage.mark (msg : LockMessage) (ok : Bool) (setBy : ℕ → Option (ℕ × ℕ)) :
    ℕ → Option (ℕ × ℕ) :=
  match msg.purpose with
  | .set k => if ok then Function.update setBy msg.node (some (msg.call, k)) else setBy
  | .undo _ | .release => setBy

/-- The steps of `Acquire` that send nothing. -/
def AcquireAct.isLocal : AcquireAct → Bool
  | .setNX _ | .undo _ => false
  | .start _ | .startFail | .decide | .undone | .retry | .ctxDone => true

/-- The steps of `Release` that send nothing. -/
def ReleaseAct.isLocal : ReleaseAct → Bool
  | .release _ => false
  | .start | .finish => true

/-- One atomic step. -/
inductive LockMessagesAct
  | tick (d : ℕ)
  | acquire (i : ℕ) (act : AcquireAct)
  | release (i : ℕ) (act : ReleaseAct)
  | send (i : ℕ)
  | deliver (msg : LockMessage)
  | lose (msg : LockMessage)
  | receive (i : ℕ) (ok : Bool)
  | giveUp (i : ℕ)

/-- The state after a step of one call that sends nothing. -/
def LockMessages.moved (s : LockMessages) (i : ℕ) (call : LockCall) (won : Bool) :
    LockMessages :=
  { s with
    calls := Function.update s.calls i call
    won := if won then Function.update s.won i (s.calls i).attempt else s.won }

/-- The state after a command was sent. -/
def LockMessages.sent (s : LockMessages) (i : ℕ) (msg : LockMessage) : LockMessages :=
  { s with
    awaiting := Function.update s.awaiting i (some msg)
    flight := msg :: s.flight }

/-- The state after a command was run. -/
def LockMessages.delivered (s : LockMessages) (m : Manager) (resource : String)
    (msg : LockMessage) : LockMessages :=
  { s with
    nodes := (msg.run m s.clock s.nodes resource).1
    flight := s.flight.erase msg
    replies := (msg, (msg.run m s.clock s.nodes resource).2) :: s.replies
    setBy := msg.mark (msg.run m s.clock s.nodes resource).2 s.setBy }

/-- The state after a call has stopped to wait. -/
def LockMessages.resumed (s : LockMessages) (i : ℕ) (ok : Bool) : LockMessages :=
  { s with
    calls := Function.update s.calls i ((s.calls i).replied ok)
    awaiting := Function.update s.awaiting i none }

/-- One step of the calls on a key. -/
def lockMessagesStep (m : Manager) (resource : String) (s : LockMessages) :
    LockMessagesAct → Option LockMessages
  | .tick d => some { s with clock := s.clock + d }
  | .acquire i act =>
    if s.awaiting i = none ∧ act.isLocal then
      (acquireStep m s.clock s.nodes resource (s.calls i) act).map fun r =>
        s.moved i r.2.1 (r.2.2 = some true)
    else none
  | .release i act =>
    if s.awaiting i = none ∧ act.isLocal then
      (releaseStep m s.clock s.nodes resource (s.calls i) act).map fun r =>
        s.moved i r.2.1 false
    else none
  | .send i =>
    if s.awaiting i = none then ((s.calls i).command m i).map (s.sent i) else none
  | .deliver msg => if msg ∈ s.flight then some (s.delivered m resource msg) else none
  | .lose msg =>
    if msg ∈ s.flight then some { s with flight := s.flight.erase msg } else none
  | .receive i ok =>
    (s.awaiting i).bind fun msg => if (msg, ok) ∈ s.replies then some (s.resumed i ok) else none
  | .giveUp i => (s.awaiting i).map fun _ => s.resumed i false

/-- The steps of the calls on a key, one by one. -/
inductive LockMessagesStep (m : Manager) (resource : String) (s : LockMessages) :
    LockMessagesAct → LockMessages → Prop
  | tick {d : ℕ} : LockMessagesStep m resource s (.tick d) { s with clock := s.clock + d }
  | acquire {i : ℕ} {act : AcquireAct} {nodes : Nodes} {call : LockCall} {result : Option Bool}
      (h : AcquireStep m s.clock s.nodes resource (s.calls i) act nodes call result) :
      LockMessagesStep m resource s (.acquire i act) (s.moved i call (result = some true))
  | release {i : ℕ} {act : ReleaseAct} {nodes : Nodes} {call : LockCall} {returned : Bool}
      (h : releaseStep m s.clock s.nodes resource (s.calls i) act =
        some (nodes, call, returned)) :
      LockMessagesStep m resource s (.release i act) (s.moved i call false)
  | send {i : ℕ} {msg : LockMessage} (h : (s.calls i).command m i = some msg) :
      LockMessagesStep m resource s (.send i) (s.sent i msg)
  | deliver {msg : LockMessage} (h : msg ∈ s.flight) :
      LockMessagesStep m resource s (.deliver msg) (s.delivered m resource msg)
  | lose {msg : LockMessage} :
      LockMessagesStep m resource s (.lose msg) { s with flight := s.flight.erase msg }
  | receive {i : ℕ} {ok : Bool} : LockMessagesStep m resource s (.receive i ok) (s.resumed i ok)
  | giveUp {i : ℕ} : LockMessagesStep m resource s (.giveUp i) (s.resumed i false)

section Step

variable {m : Manager} {resource : String} {as : List LockMessagesAct} {s s' : LockMessages}
  {a : LockMessagesAct} {i j k : ℕ} {call : LockCall}

/-- Every step of `lockMessagesStep` is one of the listed steps. -/
theorem lockMessagesStep_sound (h : lockMessagesStep m resource s a = some s') :
    LockMessagesStep m resource s a s' := by
  cases a with
  | tick d =>
      obtain rfl := Option.some.inj h
      exact .tick
  | acquire i act =>
      obtain ⟨-, h⟩ := Option.ite_none_right_eq_some.mp h
      obtain ⟨⟨nodes, call, result⟩, hstep, rfl⟩ := Option.map_eq_some_iff.mp h
      exact .acquire (acquireStep_sound hstep)
  | release i act =>
      obtain ⟨-, h⟩ := Option.ite_none_right_eq_some.mp h
      obtain ⟨⟨nodes, call, returned⟩, hstep, rfl⟩ := Option.map_eq_some_iff.mp h
      exact .release hstep
  | send i =>
      obtain ⟨-, h⟩ := Option.ite_none_right_eq_some.mp h
      obtain ⟨msg, hmsg, rfl⟩ := Option.map_eq_some_iff.mp h
      exact .send hmsg
  | deliver msg =>
      obtain ⟨hmem, h⟩ := Option.ite_none_right_eq_some.mp h
      obtain rfl := Option.some.inj h
      exact .deliver hmem
  | lose msg =>
      obtain ⟨-, h⟩ := Option.ite_none_right_eq_some.mp h
      obtain rfl := Option.some.inj h
      exact .lose
  | receive i ok =>
      obtain ⟨msg, -, h⟩ := Option.bind_eq_some_iff.mp h
      obtain ⟨-, h⟩ := Option.ite_none_right_eq_some.mp h
      obtain rfl := Option.some.inj h
      exact .receive
  | giveUp i =>
      obtain ⟨msg, -, rfl⟩ := Option.map_eq_some_iff.mp h
      exact .giveUp

/-! ### Commands that take effect while the caller waits -/

/-- The call sends a command and goes on: the node runs it or not, and only a node that has
set the key is counted. -/
def Exchanged (m : Manager) (clock : Time) (nodes : Nodes) (resource : String) (i : ℕ)
    (call : LockCall) (nodes' : Nodes) (call' : LockCall) : Prop :=
  ∃ msg ok delivered, call.command m i = some msg ∧ call' = call.replied ok ∧
    nodes' = (if delivered then (msg.run m clock nodes resource).1 else nodes) ∧
    (ok = true → delivered = true ∧ (msg.run m clock nodes resource).2 = true)

/-- The steps of `Acquire` that send a command. -/
theorem acquireStep_exchanged {clock : Time} {nodes nodes' : Nodes} {call' : LockCall}
    {act : AcquireAct} {result : Option Bool}
    (h : acquireStep m clock nodes resource call act = some (nodes', call', result))
    (hact : act.isLocal = false) : Exchanged m clock nodes resource i call nodes' call' := by
  cases acquireStep_sound h with
  | @won value attempt next start acquired hnext hok =>
      exact ⟨⟨next, i, .set attempt, value⟩, true, true, if_pos hnext, rfl, rfl,
        fun _ => ⟨rfl, hok⟩⟩
  | @notCounted value attempt next start acquired reply nodes' hnext hnodes =>
      rcases hnodes with rfl | rfl
      · exact ⟨⟨next, i, .set attempt, value⟩, false, false, if_pos hnext, rfl, rfl, nofun⟩
      · exact ⟨⟨next, i, .set attempt, value⟩, false, true, if_pos hnext, rfl, rfl, nofun⟩
  | @undo value attempt next delivered =>
      have hnext : next < m.clients := by
        by_contra hnot
        simp [acquireStep, hnot] at h
      exact ⟨⟨next, i, .undo attempt, value⟩, false, delivered, if_pos hnext, rfl, rfl, nofun⟩
  | _ => cases hact

/-- The steps of `Acquire` that send nothing touch no node. -/
theorem AcquireStep.nodes_eq {clock : Time} {nodes nodes' : Nodes} {call' : LockCall}
    {act : AcquireAct} {result : Option Bool}
    (h : AcquireStep m clock nodes resource call act nodes' call' result)
    (hact : act.isLocal = true) : nodes' = nodes := by
  cases h with
  | won => cases hact
  | notCounted => cases hact
  | undo => cases hact
  | _ => rfl

/-- A step of `Release` sends a command, or touches no node. -/
theorem releaseStep_cases {clock : Time} {nodes nodes' : Nodes} {call' : LockCall}
    {act : ReleaseAct} {returned : Bool}
    (h : releaseStep m clock nodes resource call act = some (nodes', call', returned)) :
    (act.isLocal = true ∧ nodes' = nodes) ∨
      Exchanged m clock nodes resource i call nodes' call' := by
  unfold releaseStep at h
  split at h
  · cases h
    exact .inl ⟨rfl, rfl⟩
  · rename_i delivered value next
    split at h
    · rename_i hnext
      cases h
      exact .inr ⟨⟨next, i, .release, value⟩, false, delivered, if_pos hnext, rfl, rfl, nofun⟩
    · cases h
  · split at h <;> cases h
    exact .inl ⟨rfl, rfl⟩
  · cases h

/-- The same nodes and calls, with nobody waiting. -/
structure LockNet.Agrees (s : LockNet) (u : LockMessages) : Prop where
  clock : u.clock = s.clock
  nodes : u.nodes = s.nodes
  calls : u.calls = s.calls
  awaiting : ∀ i, u.awaiting i = none

/-- An exchange with a node is a run of messages. -/
theorem LockNet.Agrees.exchanged {s : LockNet} {u : LockMessages} {nodes : Nodes}
    (hu : s.Agrees u) (h : Exchanged m s.clock s.nodes resource i (s.calls i) nodes call) :
    ∃ bs u', exec (lockMessagesStep m resource) u bs = some u' ∧
      (s.moved i nodes call).Agrees u' := by
  obtain ⟨msg, ok, delivered, hmsg, rfl, rfl, hok⟩ := h
  have hsend : lockMessagesStep m resource u (.send i) = some (u.sent i msg) := by
    simp only [lockMessagesStep, if_pos (hu.awaiting i), hu.calls, hmsg, Option.map_some]
  have hfree : ∀ j, Function.update (u.sent i msg).awaiting i none j = none := by
    intro j
    by_cases hj : j = i
    · rw [hj, Function.update_self]
    · rw [Function.update_of_ne hj]
      exact (Function.update_of_ne hj _ _).trans (hu.awaiting j)
  have hawait : (u.sent i msg).awaiting i = some msg := Function.update_self _ _ _
  cases delivered with
  | false =>
      -- the message stays under way
      have hno : ok = false := by
        cases ok with
        | false => rfl
        | true => cases (hok rfl).1
      subst hno
      have hgiveUp : lockMessagesStep m resource (u.sent i msg) (.giveUp i) =
          some ((u.sent i msg).resumed i false) := by
        simp only [lockMessagesStep, hawait, Option.map_some]
      refine ⟨[.send i, .giveUp i], (u.sent i msg).resumed i false, ?_, ?_⟩
      · simp only [exec, hsend, hgiveUp, Option.bind_some]
      · refine ⟨hu.clock, hu.nodes, ?_, hfree⟩
        simp only [LockMessages.resumed, LockMessages.sent, LockNet.moved, hu.calls]
  | true =>
      have hdeliver : lockMessagesStep m resource (u.sent i msg) (.deliver msg) =
          some ((u.sent i msg).delivered m resource msg) :=
        if_pos (List.mem_cons_self ..)
      have hlast : ∃ a, lockMessagesStep m resource ((u.sent i msg).delivered m resource msg) a =
          some (((u.sent i msg).delivered m resource msg).resumed i ok) := by
        have hstill : ((u.sent i msg).delivered m resource msg).awaiting i = some msg := hawait
        cases ok with
        | false => exact ⟨.giveUp i, by simp only [lockMessagesStep, hstill, Option.map_some]⟩
        | true =>
            have hrun : (msg.run m u.clock u.nodes resource).2 = true := by
              rw [hu.clock, hu.nodes]
              exact (hok rfl).2
            have hreply : (msg, true) ∈ ((u.sent i msg).delivered m resource msg).replies :=
              List.mem_cons.mpr (.inl (by rw [← hrun]; rfl))
            refine ⟨.receive i true, ?_⟩
            simp only [lockMessagesStep, hstill, Option.bind_some, if_pos hreply]
      obtain ⟨a, ha⟩ := hlast
      refine ⟨[.send i, .deliver msg, a],
        ((u.sent i msg).delivered m resource msg).resumed i ok, ?_, ?_⟩
      · simp only [exec, hsend, hdeliver, ha, Option.bind_some]
      · refine ⟨hu.clock, ?_, ?_, hfree⟩
        · simp only [LockMessages.resumed, LockMessages.delivered, LockMessages.sent,
            LockNet.moved, hu.clock, hu.nodes, if_true]
        · simp only [LockMessages.resumed, LockMessages.delivered, LockMessages.sent,
            LockNet.moved, hu.calls]

/-- A step of a call on its own is a step of this system. -/
theorem LockNet.Agrees.moved {s : LockNet} {u : LockMessages} (hu : s.Agrees u) (i : ℕ)
    (call : LockCall) (won : Bool) : (s.moved i s.nodes call).Agrees (u.moved i call won) :=
  ⟨hu.clock, hu.nodes, by simp only [LockMessages.moved, LockNet.moved, hu.calls], hu.awaiting⟩

/-- Every step of the calls with atomic commands is a run of messages. -/
theorem LockNet.Agrees.step {s s' : LockNet} {u : LockMessages} {a : LockNetAct}
    (hu : s.Agrees u) (h : lockNetStep m resource s a = some s') :
    ∃ bs u', exec (lockMessagesStep m resource) u bs = some u' ∧ s'.Agrees u' := by
  cases a with
  | tick d =>
      obtain rfl := Option.some.inj h
      refine ⟨[.tick d], { u with clock := u.clock + d }, exec_singleton _ _, ?_⟩
      exact ⟨congrArg (· + (d : ℤ)) hu.clock, hu.nodes, hu.calls, hu.awaiting⟩
  | acquire i act =>
      obtain ⟨⟨nodes, call, result⟩, hstep, rfl⟩ := Option.map_eq_some_iff.mp h
      cases hact : act.isLocal with
      | false => exact hu.exchanged (acquireStep_exchanged hstep hact)
      | true =>
          obtain rfl := (acquireStep_sound hstep).nodes_eq hact
          refine ⟨[.acquire i act], u.moved i call (result = some true), ?_, hu.moved i call _⟩
          simp only [exec_singleton, lockMessagesStep, hu.clock, hu.nodes, hu.calls, hstep,
            if_pos (And.intro (hu.awaiting i) hact), Option.map_some]
  | release i act =>
      obtain ⟨⟨nodes, call, returned⟩, hstep, rfl⟩ := Option.map_eq_some_iff.mp h
      rcases releaseStep_cases hstep with ⟨hact, rfl⟩ | hexchanged
      · refine ⟨[.release i act], u.moved i call false, ?_, hu.moved i call _⟩
        simp only [exec_singleton, lockMessagesStep, hu.clock, hu.nodes, hu.calls, hstep,
          if_pos (And.intro (hu.awaiting i) hact), Option.map_some]
      · exact hu.exchanged hexchanged

/-- **Atomic commands.** Calls whose commands take effect while the caller waits, or not at
all, are calls of this system. -/
theorem exists_exec_of_lockNet {as : List LockNetAct} {s : LockNet}
    (h : exec (lockNetStep m resource) LockNet.init as = some s) :
    ∃ bs u, exec (lockMessagesStep m resource) LockMessages.init bs = some u ∧ s.Agrees u := by
  refine exec_invariant (I := fun s => ∃ bs u,
    exec (lockMessagesStep m resource) LockMessages.init bs = some u ∧ s.Agrees u) ?_ ?_ h
  · rintro s a s' ⟨bs, u, hbs, hu⟩ hs
    obtain ⟨cs, u', hcs, hu'⟩ := hu.step hs
    exact ⟨bs ++ cs, u', exec_append_iff.mpr ⟨u, hbs, hcs⟩, hu'⟩
  · exact ⟨[], LockMessages.init, rfl, rfl, rfl, rfl, fun _ => rfl⟩

/-! ### The order of the attempts -/

/-- The call has come to attempt `k`. -/
def LockCall.Reached (k : ℕ) : LockCall → Prop
  | .idle => False
  | .setting _ attempt _ _ _ | .undoing _ attempt _ | .waiting _ attempt _ => k ≤ attempt
  | .held _ _ _ | .releasing _ _ | .closed => True

theorem AcquireStep.reached {clock : Time} {nodes nodes' : Nodes} {call' : LockCall}
    {act : AcquireAct} {result : Option Bool}
    (h : AcquireStep m clock nodes resource call act nodes' call' result)
    (hk : call.Reached k) : call'.Reached k := by
  cases h with
  | started => exact hk.elim
  | startFailed => exact hk.elim
  | acquired => trivial
  | exhausted => trivial
  | ctxDone => trivial
  | wait => exact Nat.le_succ_of_le hk
  | _ => exact hk

theorem releaseStep_reached {clock : Time} {nodes nodes' : Nodes} {call' : LockCall}
    {act : ReleaseAct} {returned : Bool}
    (h : releaseStep m clock nodes resource call act = some (nodes', call', returned)) :
    call'.Reached k := by
  unfold releaseStep at h
  split at h
  · cases h
    trivial
  · split at h <;> cases h
    trivial
  · split at h <;> cases h
    trivial
  · cases h

theorem LockCall.Reached.replied (hk : call.Reached k) (ok : Bool) :
    (call.replied ok).Reached k := by
  cases call <;> exact hk

/-- What a call sends belongs to the attempt it is in. -/
theorem command_spec {msg : LockMessage} (h : call.command m i = some msg) :
    msg.call = i ∧ (∀ a, msg.purpose = .set a → call.Reached a) ∧
      ∀ a, msg.purpose = .undo a → call.Reached k → k ≤ a := by
  cases call with
  | setting value attempt start next acquired =>
      obtain ⟨-, h⟩ := Option.ite_none_right_eq_some.mp h
      obtain rfl := Option.some.inj h
      refine ⟨rfl, ?_, fun a ha => by cases ha⟩
      intro a ha
      injection ha with ha
      exact le_of_eq ha.symm
  | undoing value attempt next =>
      obtain ⟨-, h⟩ := Option.ite_none_right_eq_some.mp h
      obtain rfl := Option.some.inj h
      refine ⟨rfl, fun a ha => (by cases ha), ?_⟩
      intro a ha hk
      injection ha with ha
      exact ha ▸ hk
  | releasing value next =>
      obtain ⟨-, h⟩ := Option.ite_none_right_eq_some.mp h
      obtain rfl := Option.some.inj h
      exact ⟨rfl, fun a ha => (by cases ha), fun a ha => by cases ha⟩
  | _ => cases h

/-- A step takes every call on, never back. -/
theorem step_reached (hk : (s.calls i).Reached k)
    (h : lockMessagesStep m resource s a = some s') : (s'.calls i).Reached k := by
  have hone : ∀ (j : ℕ) (call : LockCall), ((s.calls j).Reached k → call.Reached k) →
      (Function.update s.calls j call i).Reached k := by
    intro j call hcall
    by_cases hij : i = j
    · subst hij
      rw [Function.update_self]
      exact hcall hk
    · rw [Function.update_of_ne hij]
      exact hk
  cases lockMessagesStep_sound h with
  | @acquire j act nodes call result hstep => exact hone j call hstep.reached
  | @release j act nodes call returned hstep =>
      exact hone j call fun _ => releaseStep_reached hstep
  | @receive j ok => exact hone j _ fun hj => hj.replied ok
  | @giveUp j => exact hone j _ fun hj => hj.replied false
  | _ => exact hk

/-- Who has set the keys after a command: whoever it was before, or the sender of the
command, in the attempt it belongs to, if the command has set the key. -/
theorem mark_cases {msg : LockMessage} {ok : Bool} {setBy : ℕ → Option (ℕ × ℕ)} {n : ℕ}
    (h : msg.mark ok setBy n = some (i, k)) :
    setBy n = some (i, k) ∨
      (ok = true ∧ n = msg.node ∧ i = msg.call ∧ msg.purpose = .set k) := by
  cases ha : msg.purpose with
  | set a =>
      simp only [LockMessage.mark, ha] at h
      split at h
      · rename_i hok
        by_cases hn : n = msg.node
        · subst hn
          rw [Function.update_self] at h
          injection h with h
          injection h with hi hk
          exact .inr ⟨hok, rfl, hi.symm, by rw [hk]⟩
        · rw [Function.update_of_ne hn] at h
          exact .inl h
      · exact .inl h
  | undo a =>
      simp only [LockMessage.mark, ha] at h
      exact .inl h
  | release =>
      simp only [LockMessage.mark, ha] at h
      exact .inl h

/-! ### Clean-ups and later attempts -/

/-- No attempt is ahead of its call, and no clean-up under way is older than the key that it
will find. -/
structure LockMessages.InOrder (s : LockMessages) : Prop where
  setBy_reached : ∀ n i k, s.setBy n = some (i, k) → (s.calls i).Reached k
  flight_reached : ∀ msg ∈ s.flight, ∀ k, msg.purpose = .set k → (s.calls msg.call).Reached k
  undo_ge : ∀ msg ∈ s.flight, ∀ j k, msg.purpose = .undo j →
    s.setBy msg.node = some (msg.call, k) → k ≤ j

/-- A clean-up of an earlier attempt than the one a key is taken in. -/
def Purpose.cleansBefore : Purpose → Purpose → Bool
  | .undo j, .set k => j < k
  | _, _ => false

/-- A command that sets the key overtakes a clean-up of an earlier attempt of the same call on
its way to the same node. -/
def overtakes (m : Manager) (resource : String) (s : LockMessages) : LockMessagesAct → Bool
  | .deliver msg => (msg.run m s.clock s.nodes resource).2 && s.flight.any fun late =>
      late.node = msg.node && late.call = msg.call && late.purpose.cleansBefore msg.purpose
  | _ => false

/-- The step overtakes no clean-up. -/
def NoOvertaking (m : Manager) (resource : String) (s : LockMessages) (a : LockMessagesAct)
    (_ : LockMessages) : Prop :=
  overtakes m resource s a = false

theorem NoOvertaking.le {msg late : LockMessage} (h : NoOvertaking m resource s (.deliver msg) s')
    (hok : (msg.run m s.clock s.nodes resource).2 = true) (hlate : late ∈ s.flight)
    (hnode : late.node = msg.node) (hcall : late.call = msg.call)
    (hundo : late.purpose = .undo j) (hset : msg.purpose = .set k) : k ≤ j := by
  simp only [NoOvertaking, overtakes, hok, Bool.true_and] at h
  have hnot := List.any_eq_false.mp h late hlate
  simpa [hnode, hcall, hundo, hset, Purpose.cleansBefore] using hnot

/-- A clean-up that is run after its call has won in a later attempt leaves the key of that
attempt alone. -/
def SparesLater (resource : String) (s : LockMessages) (a : LockMessagesAct)
    (s' : LockMessages) : Prop :=
  ∀ msg j k e, a = .deliver msg → msg.purpose = .undo j → s.won msg.call = some k → j < k →
    s.setBy msg.node = some (msg.call, k) → s.nodes.live s.clock msg.node resource = some e →
    s'.nodes.live s'.clock msg.node resource = some e

/-- What is under way after a step was under way, or is just sent. -/
theorem step_flight {msg : LockMessage} (h : lockMessagesStep m resource s a = some s')
    (hmsg : msg ∈ s'.flight) :
    msg ∈ s.flight ∨ (s'.setBy = s.setBy ∧ s'.calls = s.calls ∧
      ∃ i, (s.calls i).command m i = some msg) := by
  cases lockMessagesStep_sound h with
  | @send i sent hsent =>
      rcases List.mem_cons.mp hmsg with rfl | hmsg
      · exact .inr ⟨rfl, rfl, i, hsent⟩
      · exact .inl hmsg
  | deliver _ => exact .inl (List.mem_of_mem_erase hmsg)
  | lose => exact .inl (List.mem_of_mem_erase hmsg)
  | _ => exact .inl hmsg

/-- Who has set the keys after a step: whoever it was before, or the sender of the command
that has set the key. -/
theorem step_setBy {n : ℕ} (h : lockMessagesStep m resource s a = some s')
    (hset : s'.setBy n = some (i, k)) :
    s.setBy n = some (i, k) ∨ ∃ msg, a = .deliver msg ∧ msg ∈ s.flight ∧
      (msg.run m s.clock s.nodes resource).2 = true ∧ msg.node = n ∧ msg.call = i ∧
      msg.purpose = .set k := by
  cases lockMessagesStep_sound h with
  | @deliver msg hmem =>
      rcases mark_cases hset with hold | ⟨hok, rfl, rfl, hpurpose⟩
      · exact .inl hold
      · exact .inr ⟨msg, rfl, hmem, hok, rfl, rfl, hpurpose⟩
  | _ => exact .inl hset

/-- A step without overtaking keeps the order. -/
theorem step_inOrder (hs : s.InOrder) (h : lockMessagesStep m resource s a = some s')
    (hno : NoOvertaking m resource s a s') : s'.InOrder := by
  refine ⟨?_, ?_, ?_⟩
  · intro n i k hset
    rcases step_setBy h hset with hold | ⟨msg, -, hmem, -, -, rfl, hpurpose⟩
    · exact step_reached (hs.setBy_reached n i k hold) h
    · exact step_reached (hs.flight_reached msg hmem k hpurpose) h
  · intro msg hmsg k hpurpose
    rcases step_flight h hmsg with hold | ⟨-, hcalls, i, hsent⟩
    · exact step_reached (hs.flight_reached msg hold k hpurpose) h
    · obtain ⟨rfl, hset, -⟩ := command_spec (k := k) hsent
      rw [hcalls]
      exact hset k hpurpose
  · intro msg hmsg j k hpurpose hset
    rcases step_flight h hmsg with hold | ⟨hsame, -, i, hsent⟩
    · rcases step_setBy h hset with hset | ⟨late, rfl, -, hok, hnode, hcall, hlate⟩
      · exact hs.undo_ge msg hold j k hpurpose hset
      · exact hno.le hok hold hnode.symm hcall.symm hpurpose hlate
    · -- a clean-up just sent is that of the current attempt
      obtain ⟨rfl, -, hundo⟩ := command_spec hsent
      rw [hsame] at hset
      exact hundo j hpurpose (hs.setBy_reached _ _ _ hset)

/-- **Order.** Without overtaking, no clean-up under way is older than the key it will find. -/
theorem inOrder_of_exec (hall : AllSteps (lockMessagesStep m resource) (NoOvertaking m resource)
      LockMessages.init as)
    (h : exec (lockMessagesStep m resource) LockMessages.init as = some s) : s.InOrder := by
  refine hall.exec_invariant (I := LockMessages.InOrder) (P := NoOvertaking m resource) ?_ ?_ h
  · intro u a v hu ha hno
    exact step_inOrder hu ha hno
  · refine ⟨fun n i k hset => ?_, fun msg hmsg => ?_, fun msg hmsg => ?_⟩
    · cases hset
    · cases hmsg
    · cases hmsg

end Step

/-- **Clean-ups.** In a run without overtaking, cleaning up one attempt never undoes a later
attempt that has won. -/
theorem sparesLater_of_noOvertaking (m : Manager) (resource : String)
    (as : List LockMessagesAct)
    (hall : AllSteps (lockMessagesStep m resource) (NoOvertaking m resource)
      LockMessages.init as) :
    AllSteps (lockMessagesStep m resource) (SparesLater resource) LockMessages.init as := by
  intro pre a post u v has hpre ha msg j k e hdeliver hpurpose hwon hjk hset hlive
  subst hdeliver
  have hinit : AllSteps (lockMessagesStep m resource) (NoOvertaking m resource)
      LockMessages.init pre := by
    rw [has] at hall
    exact hall.of_append
  have hmem : msg ∈ u.flight := by
    cases lockMessagesStep_sound ha with
    | deliver hmem => exact hmem
  have hle : k ≤ j := (inOrder_of_exec hinit hpre).undo_ge msg hmem j k hpurpose hset
  omega

/-- The commands of the only call, to the only node. -/
def attemptMessage (purpose : Purpose) : LockMessage :=
  ⟨0, 0, purpose, generateToken (sampleRandom 1)⟩

/-- The caller gives up on its first attempt and on the clean-up, and wins in the second. The
commands of the first attempt reach the node as `first` and `late` say: before the second
attempt, or after it. -/
def secondAttempt (first late : List LockMessagesAct) : List LockMessagesAct :=
  [.acquire 0 (.start (sampleRandom 1)), .send 0, .giveUp 0, .acquire 0 .decide,
    .send 0, .giveUp 0, .acquire 0 .undone] ++ first ++
  [.tick 100000000, .acquire 0 .retry, .send 0, .deliver (attemptMessage (.set 1)),
    .receive 0 true, .acquire 0 .decide] ++ late

/-- Both commands of the first attempt are late, but come in before the second attempt: the
lock survives. -/
theorem sparesLater_of_noOvertaking_inOrder :
    (exec (lockMessagesStep (serverLockManager 1) "job:exec:1") LockMessages.init
        (secondAttempt [.deliver (attemptMessage (.set 0)), .deliver (attemptMessage (.undo 0))]
          [])).any (fun s => s.won 0 = some 1) = true ∧
      AllSteps (lockMessagesStep (serverLockManager 1) "job:exec:1") (SparesLater "job:exec:1")
        LockMessages.init
        (secondAttempt [.deliver (attemptMessage (.set 0)), .deliver (attemptMessage (.undo 0))]
          []) := by
  refine ⟨by decide +kernel, sparesLater_of_noOvertaking _ _ _ ?_⟩
  exact allSteps_of_checkSteps_not
    (p := overtakes (serverLockManager 1) "job:exec:1") (by decide +kernel)

/-- The clean-up of the first attempt reaches the node after the second attempt has won, and
deletes its key. -/
theorem not_sparesLater_lateUndo :
    ¬ AllSteps (lockMessagesStep (serverLockManager 1) "job:exec:1") (SparesLater "job:exec:1")
        LockMessages.init (secondAttempt [] [.deliver (attemptMessage (.undo 0))]) := by
  intro h
  obtain ⟨s, hs, hkey⟩ := (Option.any_eq_true _ _).mp
    (show (exec (lockMessagesStep (serverLockManager 1) "job:exec:1") LockMessages.init
        (secondAttempt [] [])).any (fun s =>
          s.won 0 = some 1 && s.setBy 0 = some (0, 1) &&
          (s.nodes.live s.clock 0 "job:exec:1").isSome &&
          (lockMessagesStep (serverLockManager 1) "job:exec:1" s
            (.deliver (attemptMessage (.undo 0)))).any fun s' =>
              s'.nodes.live s'.clock 0 "job:exec:1" = none) = true by decide +kernel)
  simp only [Bool.and_eq_true, decide_eq_true_eq, Option.any_eq_true] at hkey
  obtain ⟨⟨⟨hwon, hset⟩, hsome⟩, s', hstep, hnone⟩ := hkey
  obtain ⟨e, he⟩ := Option.isSome_iff_exists.mp hsome
  have hkept := h _ _ [] s s' rfl hs hstep _ 0 1 e rfl rfl hwon
    Nat.zero_lt_one hset he
  have hgone : s'.nodes.live s'.clock 0 "job:exec:1" = none := hnone
  rw [show (attemptMessage (.undo 0)).node = 0 from rfl, hgone] at hkept
  cases hkept

end Conduit
