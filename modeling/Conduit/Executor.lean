import Mathlib.Data.Multiset.AddSub
import Conduit.Transition

/-!
# Bounded Executors

What a bounded executor of tasks is for: it accepts tasks, begins each task that it has accepted,
and ends it, with no more than a given number of tasks in progress. Its state is the tasks that
wait, those in progress and those that are finished; in which order it takes them is left open.
Nothing here refers to a particular program.

The events of a run account for its state, so an executor that has nothing left to do has begun
and ended each task as often as it has accepted it.

## Main results

* `card_running_le`: the limit is kept.
* `begun_le_accepted`: no task is begun more often than it is accepted.
* `ended_of_idle`: when no task is left, each has been begun and ended as often as accepted.
-/

namespace Executor

open Transition

/-- What an executor does with a task. -/
inductive Event (α : Type*)
  | accepted (x : α)
  | begun (x : α)
  | ended (x : α)
  deriving DecidableEq

/-- The tasks of an executor. -/
@[ext] structure State (α : Type*) where
  waiting : Multiset α
  running : Multiset α
  finished : Multiset α

/-- An executor without tasks. -/
def State.empty {α : Type*} : State α := ⟨0, 0, 0⟩

variable {α : Type*} [DecidableEq α]

/-- One step of an executor with at most `limit` tasks in progress. -/
def step (limit : ℕ) (s : State α) : Event α → Option (State α)
  | .accepted x => some { s with waiting := x ::ₘ s.waiting }
  | .begun x =>
    if x ∈ s.waiting ∧ s.running.card < limit then
      some { s with waiting := s.waiting.erase x, running := x ::ₘ s.running }
    else none
  | .ended x =>
    if x ∈ s.running then
      some { s with running := s.running.erase x, finished := x ::ₘ s.finished }
    else none

/-- The steps of an executor, one by one. -/
inductive Step (limit : ℕ) : State α → Event α → State α → Prop
  | accepted {waiting running finished : Multiset α} (x : α) :
      Step limit ⟨waiting, running, finished⟩ (.accepted x) ⟨x ::ₘ waiting, running, finished⟩
  | begun {waiting running finished : Multiset α} {x : α} (h : running.card < limit) :
      Step limit ⟨x ::ₘ waiting, running, finished⟩ (.begun x) ⟨waiting, x ::ₘ running, finished⟩
  | ended {waiting running finished : Multiset α} (x : α) :
      Step limit ⟨waiting, x ::ₘ running, finished⟩ (.ended x) ⟨waiting, running, x ::ₘ finished⟩

variable {limit : ℕ} {s s' t : State α} {e : Event α} {es : List (Event α)}

theorem step_iff : step limit s e = some s' ↔ Step limit s e s' := by
  constructor
  · intro h
    cases e with
    | accepted x =>
        obtain rfl := Option.some.inj h
        exact .accepted x
    | begun x =>
        obtain ⟨⟨hx, hlimit⟩, rfl⟩ : (x ∈ s.waiting ∧ s.running.card < limit) ∧ _ = s' := by
          simpa [step] using h
        obtain ⟨waiting, hwaiting⟩ := Multiset.exists_cons_of_mem hx
        obtain ⟨w, r, f⟩ := s
        obtain rfl : w = x ::ₘ waiting := hwaiting
        rw [Multiset.erase_cons_head]
        exact .begun hlimit
    | ended x =>
        obtain ⟨hx, rfl⟩ : x ∈ s.running ∧ _ = s' := by simpa [step] using h
        obtain ⟨running, hrunning⟩ := Multiset.exists_cons_of_mem hx
        obtain ⟨w, r, f⟩ := s
        obtain rfl : r = x ::ₘ running := hrunning
        rw [Multiset.erase_cons_head]
        exact .ended x
  · intro h
    cases h with
    | accepted x => rfl
    | begun h => simp [step, h]
    | ended x => simp [step]

/-- **The limit** is kept. -/
theorem card_running_le (h : exec (step limit) .empty es = some t) : t.running.card ≤ limit := by
  refine exec_invariant (I := fun s => s.running.card ≤ limit) (fun s e s' hs hstep => ?_)
    (Nat.zero_le limit) h
  cases step_iff.mp hstep with
  | accepted x => exact hs
  | begun hlimit =>
      rw [Multiset.card_cons]
      exact hlimit
  | ended x =>
      rw [Multiset.card_cons] at hs
      exact Nat.le_of_succ_le hs

/-- The tasks of an executor account for its events. -/
structure Accounts (es : List (Event α)) (s : State α) : Prop where
  accepted : ∀ x, es.count (.accepted x) =
    s.waiting.count x + s.running.count x + s.finished.count x
  begun : ∀ x, es.count (.begun x) = s.running.count x + s.finished.count x
  ended : ∀ x, es.count (.ended x) = s.finished.count x

/-- A log with one more event. -/
theorem count_concat (es : List (Event α)) (e d : Event α) :
    (es ++ [e]).count d = es.count d + if d = e then 1 else 0 := by
  rw [List.count_append, List.count_singleton]
  simp only [beq_iff_eq, @eq_comm _ e d]

/-- The accounts after one more event. -/
theorem Accounts.step (hs : Accounts es s) (h : Step limit s e s') : Accounts (es ++ [e]) s' := by
  obtain ⟨haccepted, hbegun, hended⟩ := hs
  cases h with
  | _ =>
      simp only [Multiset.count_cons] at haccepted hbegun hended
      constructor <;> intro y
      all_goals
        have haccepted := haccepted y
        have hbegun := hbegun y
        have hended := hended y
        simp only [count_concat, Multiset.count_cons, Event.accepted.injEq, Event.begun.injEq,
          Event.ended.injEq, reduceCtorEq, if_false]
        omega

/-- The accounts of a run. -/
theorem accounts_of_exec (h : exec (step limit) .empty es = some t) : Accounts es t := by
  refine exec_history ⟨fun _ => rfl, fun _ => rfl, fun _ => rfl⟩ ?_ h
  intro es u e v _ hu hstep
  exact hu.step (step_iff.mp hstep)

/-- No task is begun more often than it is accepted. -/
theorem begun_le_accepted (h : exec (step limit) .empty es = some t) (x : α) :
    es.count (.begun x) ≤ es.count (.accepted x) := by
  obtain ⟨haccepted, hbegun, -⟩ := accounts_of_exec h
  rw [haccepted, hbegun]
  omega

/-- **Nothing is lost.** An executor with nothing left to do has begun and ended each task as often
as it has accepted it. -/
theorem ended_of_idle (h : exec (step limit) .empty es = some t) (hwaiting : t.waiting = 0)
    (hrunning : t.running = 0) (x : α) :
    es.count (.begun x) = es.count (.accepted x) ∧
      es.count (.ended x) = es.count (.accepted x) := by
  obtain ⟨haccepted, hbegun, hended⟩ := accounts_of_exec h
  rw [haccepted, hbegun, hended, hwaiting, hrunning, Multiset.count_zero]
  omega

end Executor
