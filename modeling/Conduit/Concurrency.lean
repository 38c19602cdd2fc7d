import Mathlib.Data.Int.Notation
import Mathlib.Data.List.Basic

/-!
# Channels and Goroutines

A channel is a bounded first-in first-out buffer that can be closed. To send on a closed channel is
a panic, and a closed channel still hands out what is in its buffer. The buffer of a channel without
capacity never has room: there a value goes from a sender straight to a receiver, which is left to
the model of the two. The capacity is a field of a channel and its buffer never exceeds it.

Goroutines that run the same code are a list of their states, in the order they were started in.
Nothing here refers to a particular program.

## Main results

* `of_send_eq_sent`, `of_receive_eq_received`: a channel is a queue.
* `exists_split`: one goroutine moves and the others stay.
* `countP_keep`, `countP_drop`: how a count of goroutines changes when one of them moves.
-/

namespace Concurrency

variable {α : Type*}

/-! ### Channels -/

/-- A channel. -/
structure Chan (α : Type*) where
  capacity : ℕ
  buffer : List α
  closed : Bool
  fits : buffer.length ≤ capacity

/-- What comes of an attempt to send. -/
inductive Sent (α : Type*)
  | sent (c : Chan α)
  | full
  | closed

/-- What comes of an attempt to receive. -/
inductive Received (α : Type*)
  | received (x : α) (c : Chan α)
  | empty
  | closed

namespace Chan

/-- A new channel; a negative capacity is a panic. -/
def make (capacity : ℤ) : Option (Chan α) :=
  if 0 ≤ capacity then some ⟨capacity.toNat, [], false, Nat.zero_le _⟩ else none

/-- Send on a channel. -/
def send (c : Chan α) (x : α) : Sent α :=
  if c.closed then .closed
  else if h : c.buffer.length < c.capacity then
    .sent ⟨c.capacity, c.buffer ++ [x], c.closed, by rw [List.length_append]; exact h⟩
  else .full

/-- Receive from a channel. -/
def receive (c : Chan α) : Received α :=
  match c with
  | ⟨capacity, x :: rest, closed, fits⟩ =>
    .received x ⟨capacity, rest, closed, Nat.le_of_succ_le fits⟩
  | ⟨_, [], closed, _⟩ => if closed then .closed else .empty

/-- Close a channel. -/
def close (c : Chan α) : Chan α := { c with closed := true }

variable {c c' : Chan α} {x : α}

theorem of_make_eq_some {capacity : ℤ} (h : make capacity = some c) :
    (c.capacity : ℤ) = capacity ∧ c.buffer = [] ∧ c.closed = false := by
  unfold make at h
  split at h
  · obtain rfl := Option.some.inj h
    exact ⟨Int.toNat_of_nonneg ‹_›, rfl, rfl⟩
  · cases h

/-- **Sending** appends to the buffer of an open channel. -/
theorem of_send_eq_sent (h : c.send x = .sent c') :
    c.closed = false ∧ c'.closed = false ∧ c'.capacity = c.capacity ∧
      c'.buffer = c.buffer ++ [x] := by
  unfold send at h
  split at h
  · cases h
  · rename_i hopen
    rw [Bool.not_eq_true] at hopen
    split at h
    · obtain rfl := Sent.sent.inj h
      exact ⟨hopen, hopen, rfl, rfl⟩
    · cases h

theorem of_send_eq_closed (h : c.send x = .closed) : c.closed = true := by
  unfold send at h
  split at h
  · assumption
  · split at h <;> cases h

theorem of_send_eq_full (h : c.send x = .full) : c.closed = false := by
  unfold send at h
  split at h
  · cases h
  · exact Bool.eq_false_iff.mpr ‹_›

/-- **Receiving** takes from the front of the buffer. -/
theorem of_receive_eq_received (h : c.receive = .received x c') :
    c'.closed = c.closed ∧ c'.capacity = c.capacity ∧ c.buffer = x :: c'.buffer := by
  unfold receive at h
  split at h
  · obtain ⟨rfl, rfl⟩ := Received.received.inj h
    exact ⟨rfl, rfl, rfl⟩
  · split at h <;> cases h

/-- A receiver is told that a channel is closed once the buffer is empty. -/
theorem of_receive_eq_closed (h : c.receive = .closed) : c.buffer = [] ∧ c.closed = true := by
  unfold receive at h
  split at h
  · cases h
  · split at h
    · exact ⟨rfl, ‹_›⟩
    · cases h

end Chan

/-! ### Goroutines -/

/-- One goroutine of a list moves. -/
theorem exists_split {gs : List α} {k : ℕ} {g : α} (h : gs[k]? = some g) :
    ∃ pre post, gs = pre ++ g :: post ∧ ∀ g', gs.set k g' = pre ++ g' :: post := by
  induction gs generalizing k with
  | nil => cases h
  | cons g₀ gs ih =>
      cases k with
      | zero =>
          obtain rfl := Option.some.inj h
          exact ⟨[], gs, rfl, fun g' => rfl⟩
      | succ k =>
          obtain ⟨pre, post, hgs, hset⟩ := ih h
          refine ⟨g₀ :: pre, post, ?_, fun g' => ?_⟩
          · rw [hgs, List.cons_append]
          · rw [List.set_cons_succ, hset, List.cons_append]

section Counts

variable {p : α → Bool} {pre post : List α} {g g' : α}

/-- A move that a count does not see. -/
theorem countP_keep (h : p g = p g') :
    (pre ++ g :: post).countP p = (pre ++ g' :: post).countP p := by
  simp only [List.countP_append, List.countP_cons, h]

/-- A move out of a count. -/
theorem countP_drop (h : p g = true) (h' : p g' = false) :
    (pre ++ g :: post).countP p = (pre ++ g' :: post).countP p + 1 := by
  simp [List.countP_append, h, h', Nat.add_assoc]

end Counts

end Concurrency
