import Mathlib.Data.Set.Finite.Lattice
import Mathlib.Order.Interval.Set.Infinite
import Mathlib.Data.Int.Interval

/-!
# Orbits of a Partial Map

A loop whose next value depends on its last one alone is a partial map `next : α → Option α`:
`next a` is the value after `a`, or `none` when the loop is done. Nothing here refers to a
particular system.

## Main results

* `ends_iff`: a loop ends if and only if it comes back to no value and visits finitely many.
* `ends_iff_bddBelow`: the same for whole numbers below a limit.
* `ends_of_lt`: a loop over whole numbers that grow and stay below a limit ends.
-/

namespace Orbit

variable {α : Type*} {next : α → Option α} {a x : α} {m n : ℕ}

/-- The value after `n` rounds, unless the loop has ended by then. -/
def orbit (next : α → Option α) (a : α) : ℕ → Option α
  | 0 => some a
  | n + 1 => (orbit next a n).bind next

/-- The loop ends. -/
def Ends (next : α → Option α) (a : α) : Prop := ∃ n, orbit next a n = none

/-- The values the loop visits. -/
def visits (next : α → Option α) (a : α) : Set α := {x | ∃ n, orbit next a n = some x}

/-- The loop comes back to a value it has visited. -/
def Returns (next : α → Option α) (a : α) : Prop :=
  ∃ m n x, m < n ∧ orbit next a m = some x ∧ orbit next a n = some x

/-- The loop goes on from where it is. -/
theorem orbit_add (h : orbit next a m = some x) (n : ℕ) :
    orbit next a (m + n) = orbit next x n := by
  induction n with
  | zero => exact h
  | succ n ih => rw [← Nat.add_assoc, orbit, orbit, ih]

/-- The first round and the others. -/
theorem orbit_succ (next : α → Option α) (a : α) (n : ℕ) :
    orbit next a (n + 1) = (next a).bind fun x => orbit next x n := by
  induction n with
  | zero => cases h : next a <;> simp [orbit, h]
  | succ n ih =>
      rw [orbit, ih, Option.bind_assoc]
      rfl

/-- After its end there is nothing more. -/
theorem orbit_of_le (h : orbit next a m = none) (hle : m ≤ n) : orbit next a n = none := by
  induction n, hle using Nat.le_induction with
  | base => exact h
  | succ n _ ih => rw [orbit, ih, Option.bind_none]

/-- A loop that comes back does so again and again. -/
theorem orbit_mul (h : orbit next x n = some x) (k : ℕ) : orbit next x (k * n) = some x := by
  induction k with
  | zero => rw [Nat.zero_mul, orbit]
  | succ k ih => rw [Nat.succ_mul, orbit_add ih, h]

/-- A loop that comes back does not end. -/
theorem Returns.not_ends (h : Returns next a) : ¬ Ends next a := by
  rintro ⟨k, hk⟩
  obtain ⟨m, n, x, hlt, hm, hn⟩ := h
  obtain ⟨d, rfl⟩ := Nat.exists_eq_add_of_lt hlt
  have hround : orbit next x (d + 1) = some x := by
    rw [← orbit_add hm, ← Nat.add_assoc]
    exact hn
  have hlate : orbit next a (m + k * (d + 1)) = some x := by
    rw [orbit_add hm]
    exact orbit_mul hround k
  have hle : k ≤ m + k * (d + 1) :=
    Nat.le_add_left_of_le (Nat.le_mul_of_pos_right k (Nat.succ_pos d))
  rw [orbit_of_le hk hle] at hlate
  cases hlate

/-- A loop that ends visits finitely many values. -/
theorem Ends.finite_visits (h : Ends next a) : (visits next a).Finite := by
  obtain ⟨k, hk⟩ := h
  refine (((Set.finite_lt_nat k).image (orbit next a)).preimage
    (Option.some_injective α).injOn).subset ?_
  rintro x ⟨n, hn⟩
  refine ⟨n, show n < k from not_le.mp fun hle => ?_, hn⟩
  rw [orbit_of_le hk hle] at hn
  cases hn

/-- **Ending.** A loop ends if and only if it comes back to no value and visits finitely many. -/
theorem ends_iff : Ends next a ↔ ¬ Returns next a ∧ (visits next a).Finite := by
  constructor
  · exact fun h => ⟨fun hreturns => hreturns.not_ends h, h.finite_visits⟩
  · rintro ⟨hnew, hfinite⟩
    by_contra hends
    have hsome : ∀ n, ∃ x, orbit next a n = some x := fun n =>
      Option.ne_none_iff_exists'.mp fun hnone => hends ⟨n, hnone⟩
    choose value hvalue using hsome
    have hinj : Function.Injective value := by
      intro m n hmn
      by_contra hne
      rcases Nat.lt_or_gt_of_ne hne with hlt | hlt
      · exact hnew ⟨m, n, value n, hlt, by rw [hvalue, hmn], hvalue n⟩
      · exact hnew ⟨n, m, value n, hlt, hvalue n, by rw [hvalue, hmn]⟩
    refine Set.infinite_range_of_injective hinj (hfinite.subset ?_)
    rintro x ⟨n, rfl⟩
    exact ⟨n, hvalue n⟩

/-- What holds of the first value and is kept by every round holds of every value. -/
theorem visits_invariant {I : α → Prop} (hstep : ∀ x y, I x → next x = some y → I y)
    (ha : I a) : ∀ x ∈ visits next a, I x := by
  rintro x ⟨n, hn⟩
  induction n generalizing x with
  | zero =>
      obtain rfl := Option.some.inj hn
      exact ha
  | succ n ih =>
      obtain ⟨w, hw, hx⟩ := Option.bind_eq_some_iff.mp hn
      exact hstep w x (ih w hw) hx

/-! ### Loops over whole numbers -/

section Integers

variable {next : ℤ → Option ℤ} {a limit : ℤ}

/-- The last value a loop visits is the only one that need not be below the limit. -/
theorem ends_iff_bddBelow (hlimit : ∀ x, limit ≤ x → next x = none) :
    Ends next a ↔ ¬ Returns next a ∧ BddBelow (visits next a) := by
  rw [ends_iff]
  refine and_congr_right fun hnew => ⟨fun hfinite => hfinite.bddBelow, ?_⟩
  rintro ⟨b, hb⟩
  by_contra hinfinite
  have hgoes : ∀ x ∈ visits next a, x < limit := by
    intro x hx
    by_contra hover
    -- a value at the limit is the last one
    obtain ⟨n, hn⟩ := hx
    refine hinfinite (Ends.finite_visits ⟨n + 1, ?_⟩)
    rw [orbit, hn, Option.bind_some, hlimit x (not_lt.mp hover)]
  exact hinfinite ((Set.finite_Ico b limit).subset fun x hx => ⟨hb hx, hgoes x hx⟩)

/-- A loop whose values grow and stay below a limit ends. -/
theorem ends_of_lt (hlimit : ∀ x, limit ≤ x → next x = none)
    (hlt : ∀ x ∈ visits next a, ∀ y, next x = some y → x < y) : Ends next a := by
  have hmono : ∀ d m x y, orbit next a m = some x → orbit next a (m + d + 1) = some y →
      x < y := by
    intro d m x
    induction d with
    | zero =>
        intro y hx hy
        rw [Nat.add_zero, orbit, hx, Option.bind_some] at hy
        exact hlt x ⟨m, hx⟩ y hy
    | succ d ih =>
        intro y hx hy
        obtain ⟨w, hw, hwy⟩ := Option.bind_eq_some_iff.mp hy
        exact lt_trans (ih w hx hw) (hlt w ⟨_, hw⟩ y hwy)
  refine (ends_iff_bddBelow hlimit).mpr ⟨?_, a, ?_⟩
  · rintro ⟨m, n, x, hmn, hm, hn⟩
    obtain ⟨d, rfl⟩ := Nat.exists_eq_add_of_lt hmn
    exact lt_irrefl x (hmono d m x x hm hn)
  · rintro x ⟨n, hn⟩
    cases n with
    | zero => exact le_of_eq (Option.some.inj hn)
    | succ n =>
        rw [← Nat.zero_add n] at hn
        exact le_of_lt (hmono n 0 a x rfl hn)

end Integers

end Orbit
