import Mathlib.Data.Int.Notation
import Mathlib.Data.List.Basic

/-!
# Jobs, Tasks, and Their States

The shared types of `pkg/models`: the job record that moves through the state machine,
the task it carries, and the lifecycle stage.

Go values are read as follows. An instant (`time.Time`) is its distance from the Unix
epoch in nanoseconds and a `time.Duration` a number of nanoseconds; a pointer or a nil-able
slice or map is an `Option`; a `map[string]string` is a list of entries with strictly
increasing keys, so that two maps with the same entries are equal. `JobState` is a Go
string: the five constants are constructors, and every other text is `JobState.other`.
-/

namespace Conduit

/-- An instant, in nanoseconds since the Unix epoch. -/
abbrev Time := ℤ

/-- A `time.Duration`, in nanoseconds. -/
abbrev Duration := ℤ

/-- The zero `time.Time`, January 1 of year 1, for which `IsZero` holds. -/
def zeroTime : Time := -62135596800 * 1000000000

/-- The number of nanoseconds in a second. -/
def second : Duration := 1000000000

/-- A Go `map[string]string` that is not nil. -/
structure StringMap where
  entries : List (String × String)
  sorted : (entries.map Prod.fst).Pairwise (· < ·)
  deriving DecidableEq

/-- The texts of the `JobState` constants. -/
def jobStateTexts : List String := ["PENDING", "RUNNING", "COMPLETED", "FAILED", "DEAD"]

/-- The lifecycle stage of a job. -/
inductive JobState
  | pending
  | running
  | completed
  | failed
  | dead
  | other (text : { s : String // s ∉ jobStateTexts })
  deriving DecidableEq

/-- The empty text, which `Enqueue` replaces by `PENDING`. -/
def JobState.unset : JobState := .other ⟨"", by decide⟩

/-- The two states the state machine calls terminal. -/
def JobState.terminal : JobState → Bool
  | .completed => true
  | .dead => true
  | _ => false

/-- The payload and execution metadata of a job. -/
structure Task where
  id : String
  name : String
  payload : Option (List UInt8)
  retryCount : ℤ
  maxRetries : ℤ
  timeout : Duration
  cronExpression : String
  queue : String
  metadata : Option StringMap
  deriving DecidableEq

/-- The durable execution record. -/
structure Job where
  id : String
  idempotencyKey : String
  task : Task
  state : JobState
  attempt : ℤ
  scheduledAt : Option Time
  startedAt : Option Time
  leaseExpiresAt : Option Time
  leaseToken : String
  completedAt : Option Time
  lastError : String
  metadata : Option StringMap
  createdAt : Time
  updatedAt : Time
  deriving DecidableEq

/-! ### Random identifiers

Lease tokens and job ids are printed from sixteen random bytes. -/

/-- Sixteen bytes read from `crypto/rand`. -/
abbrev RandomBytes := { b : List UInt8 // b.length = 16 }

/-- Sixteen equal bytes. -/
def sampleRandom (b : UInt8) : RandomBytes := ⟨List.replicate 16 b, List.length_replicate⟩

/-- The two lower-case hexadecimal digits of a byte. -/
def hexDigits (b : UInt8) : List Char :=
  [Nat.digitChar (b.toNat / 16), Nat.digitChar (b.toNat % 16)]

/-- `hex.EncodeToString`, as characters. -/
def hexEncode (bytes : List UInt8) : List Char :=
  bytes.flatMap hexDigits

/-- Hexadecimal encoding doubles the length. -/
theorem length_hexEncode (bytes : List UInt8) :
    (hexEncode bytes).length = 2 * bytes.length := by
  induction bytes with
  | nil => rfl
  | cons b bytes ih =>
      simp only [hexEncode, List.flatMap_cons, List.length_append] at ih ⊢
      simp only [hexDigits, List.length_cons, List.length_nil, ih]
      omega

/-- `newLeaseToken` of the store, on the bytes it reads. -/
def newLeaseToken (rand : RandomBytes) : String :=
  String.ofList (hexEncode rand.val)

/-- `newWorkerLeaseToken`, the worker's copy of the same function. -/
abbrev newWorkerLeaseToken (rand : RandomBytes) : String := newLeaseToken rand

/-- A fresh lease token is never the empty string. -/
theorem newLeaseToken_ne_empty (rand : RandomBytes) : newLeaseToken rand ≠ "" := by
  intro h
  have hlen : (newLeaseToken rand).length = 32 := by
    rw [newLeaseToken, String.length_ofList, length_hexEncode, rand.property]
  rw [h] at hlen
  exact absurd hlen (by decide)

/-- `newJobID`, on the bytes it reads: a version 4 UUID. -/
def newJobID (rand : RandomBytes) : String :=
  let b := rand.val.mapIdx fun i x =>
    if i = 6 then (x &&& 0x0f) ||| 0x40 else if i = 8 then (x &&& 0x3f) ||| 0x80 else x
  let h := hexEncode b
  String.ofList (h.take 8 ++ '-' :: (h.drop 8).take 4 ++ '-' :: (h.drop 12).take 4 ++
    '-' :: (h.drop 16).take 4 ++ '-' :: h.drop 20)

/-! ### Fallible code -/

section Fallible

variable {ε ε' α β : Type}

/-- A successful bind in `Except` succeeds in both parts. -/
theorem except_bind_eq_ok {x : Except ε α} {f : α → Except ε β} {b : β} :
    x >>= f = .ok b ↔ ∃ a, x = .ok a ∧ f a = .ok b := by
  cases x with
  | error e => simp [bind, Except.bind]
  | ok a => simp [bind, Except.bind]

/-- An error that is wrapped is an error. -/
theorem mapError_eq_ok {x : Except ε α} {f : ε → ε'} {a : α} :
    x.mapError f = .ok a ↔ x = .ok a := by
  cases x <;> simp [Except.mapError]

/-- A loop that stops at the first error goes on after a round that succeeds. -/
theorem mapM_cons_eq_ok {f : α → Except ε β} {x : α} {xs : List α} {ys : List β} :
    (x :: xs).mapM f = .ok ys ↔
      ∃ y ys', f x = .ok y ∧ xs.mapM f = .ok ys' ∧ ys = y :: ys' := by
  rw [List.mapM_cons, except_bind_eq_ok]
  constructor
  · rintro ⟨y, hy, h⟩
    obtain ⟨ys', hys, h⟩ := except_bind_eq_ok.mp h
    exact ⟨y, ys', hy, hys, (Except.ok.inj h).symm⟩
  · rintro ⟨y, ys', hy, hys, rfl⟩
    exact ⟨y, hy, except_bind_eq_ok.mpr ⟨ys', hys, rfl⟩⟩

/-- It succeeds if and only if each of its rounds does. -/
theorem exists_mapM_eq_ok_iff {f : α → Except ε β} {xs : List α} :
    (∃ ys, xs.mapM f = .ok ys) ↔ ∀ x ∈ xs, ∃ y, f x = .ok y := by
  induction xs with
  | nil => exact iff_of_true ⟨[], rfl⟩ fun _ h => nomatch h
  | cons x xs ih =>
      rw [List.forall_mem_cons, ← ih]
      constructor
      · rintro ⟨ys, h⟩
        obtain ⟨y, ys', hy, hys, -⟩ := mapM_cons_eq_ok.mp h
        exact ⟨⟨y, hy⟩, ys', hys⟩
      · rintro ⟨⟨y, hy⟩, ys', hys⟩
        exact ⟨y :: ys', mapM_cons_eq_ok.mpr ⟨y, ys', hy, hys, rfl⟩⟩

/-- Then its results are those of its rounds. -/
theorem mem_mapM_iff {f : α → Except ε β} {xs : List α} {ys : List β}
    (h : xs.mapM f = .ok ys) {y : β} : y ∈ ys ↔ ∃ x ∈ xs, f x = .ok y := by
  induction xs generalizing ys with
  | nil =>
      obtain rfl : [] = ys := Except.ok.inj h
      simp
  | cons x xs ih =>
      obtain ⟨z, ys', hz, hys, rfl⟩ := mapM_cons_eq_ok.mp h
      rw [List.mem_cons, List.exists_mem_cons_iff, ih hys, hz, Except.ok.injEq, eq_comm]

/-- The same for a loop of checks. -/
theorem forall_of_forM_eq_ok {f : α → Except ε Unit} {xs : List α} (h : xs.forM f = .ok ()) :
    ∀ x ∈ xs, f x = .ok () := by
  induction xs with
  | nil =>
      intro x hx
      cases hx
  | cons first xs ih =>
      obtain ⟨u, hfirst, h⟩ := except_bind_eq_ok.mp h
      intro x hx
      rcases List.mem_cons.mp hx with rfl | hx
      · exact hfirst
      · exact ih h x hx

end Fallible

end Conduit
