import Mathlib.Algebra.Ring.Periodic
import Mathlib.Data.Int.LeastGreatest
import Mathlib.Order.Bounds.Basic
import Mathlib.Tactic.Linarith

/-!
# Gaps in Periodic Sets

A set of integers that repeats itself with some period. How far the next element can be is then
decided at the elements: a window that reaches the next element from each of them reaches one
from everywhere, and it is enough to look from some point on. Nothing here refers to a particular
system.

## Main results

* `short_iff`: the gaps of a periodic set are shorter than a window exactly when the window
  finds an element from every point on from a given one.
-/

namespace Gaps

/-- From each element it is less than `w` to another one. -/
def Short (s : Set ℤ) (w : ℤ) : Prop := ∀ m ∈ s, ∃ m' ∈ s, m < m' ∧ m' < m + w

section Periodic

variable {s : Set ℤ} {p w : ℤ}

/-- Elements move by whole periods. -/
theorem mem_add (hp : Function.Periodic (· ∈ s) p) (k m : ℤ) : m + k * p ∈ s ↔ m ∈ s :=
  iff_of_eq (hp.int_mul k m)

/-- An element comes after `t` and within a period of it. -/
theorem exists_shift (hp : Function.Periodic (· ∈ s) p) (hpos : 0 < p) {m : ℤ} (hm : m ∈ s)
    (t : ℤ) : ∃ k, t < m + k * p ∧ m + k * p ≤ t + p ∧ m + k * p ∈ s := by
  refine ⟨(t - m) / p + 1, ?_, ?_, (mem_add hp _ _).mpr hm⟩
  · have hmod := Int.emod_lt_of_pos (t - m) hpos
    have hdiv := Int.mul_ediv_add_emod (t - m) p
    linarith
  · have hmod := Int.emod_nonneg (t - m) (ne_of_gt hpos)
    have hdiv := Int.mul_ediv_add_emod (t - m) p
    linarith

/-- There is a last element up to `t`. -/
theorem exists_isGreatest (hp : Function.Periodic (· ∈ s) p) (hpos : 0 < p) (hne : s.Nonempty)
    (t : ℤ) : ∃ m, IsGreatest {m | m ∈ s ∧ m ≤ t} m := by
  obtain ⟨m, hm⟩ := hne
  obtain ⟨k, -, hle, hmem⟩ := exists_shift hp hpos hm (t - p)
  obtain ⟨g, hg, hlast⟩ := Int.exists_greatest_of_bdd (P := fun m => m ∈ s ∧ m ≤ t)
    ⟨t, fun _ h => h.2⟩ ⟨_, hmem, by linarith⟩
  exact ⟨g, hg, fun m hm => hlast m hm⟩

/-- **Gaps.** The gaps of a periodic set are shorter than a window if and only if the window
finds an element from every point on from `z`. -/
theorem short_iff (hp : Function.Periodic (· ∈ s) p) (hpos : 0 < p) (hne : s.Nonempty) (z : ℤ) :
    Short s w ↔ ∀ t, z ≤ t → ∃ m ∈ s, t < m ∧ m < t + w := by
  constructor
  · intro hshort t _
    obtain ⟨g, ⟨hg, hgt⟩, hlast⟩ := exists_isGreatest hp hpos hne t
    obtain ⟨m, hm, hlt, hwindow⟩ := hshort g hg
    refine ⟨m, hm, not_le.mp fun hle => ?_, by linarith⟩
    exact absurd (hlast ⟨hm, hle⟩) (not_le.mpr hlt)
  · intro hwindow m hm
    obtain ⟨k, hlate, -, hmem⟩ := exists_shift hp hpos hm z
    obtain ⟨m', hm', hlt, hlt'⟩ := hwindow _ (le_of_lt hlate)
    refine ⟨m' + -k * p, (mem_add hp _ _).mpr hm', ?_, ?_⟩
    · linarith
    · linarith

end Periodic

end Gaps
