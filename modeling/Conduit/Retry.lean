import Mathlib.Algebra.Order.Floor.Ring
import Mathlib.Algebra.Order.Ring.Pow
import Mathlib.Data.Rat.Floor
import Mathlib.Tactic.Linarith
import Conduit.Models

/-!
# Exponential Backoff

`Engine.Delay` says how long a job waits after a number of failures. A loop multiplies the base
delay once per failure and leaves off at the ceiling; a random share of the result is added on
top, and the ceiling is applied again. `NewEngine` replaces the settings with which this would
make no sense, so an `Engine` has a positive base delay that is not above its ceiling, a
multiplier above one, and a jitter between none and all of the delay.

The source computes in `float64`. That arithmetic is read here as the one of the rational
numbers. The result is not above the ceiling, so its conversion to an `int64` is in range.

## Main results

* `clamp_grow`: the loop computes a power, up to the ceiling.
* `delay_eq_floor`: `Delay` is its closed form, rounded down to whole nanoseconds.
* `delay_closedForm`: so it is between the base delay and the ceiling, and does not decrease with
  the number of failures.
-/

namespace Conduit

/-! ### Engines -/

/-- `retry.Config`. -/
structure RetryConfig where
  baseDelay : Duration
  maxDelay : Duration
  multiplier : ℚ
  maxAttempts : ℤ
  jitter : ℚ
  deriving DecidableEq

/-- The settings with which `Delay` makes sense. -/
structure RetryConfig.Normalised (cfg : RetryConfig) : Prop where
  base_pos : 0 < cfg.baseDelay
  base_le_max : cfg.baseDelay ≤ cfg.maxDelay
  one_lt_multiplier : 1 < cfg.multiplier
  jitter_nonneg : 0 ≤ cfg.jitter
  jitter_le_one : cfg.jitter ≤ 1

/-- The settings that `NewEngine` makes of given ones. -/
def RetryConfig.normalise (cfg : RetryConfig) : RetryConfig :=
  let baseDelay := if cfg.baseDelay ≤ 0 then second else cfg.baseDelay
  let maxDelay := if cfg.maxDelay ≤ 0 then 30 * second else cfg.maxDelay
  let multiplier := if cfg.multiplier ≤ 1 then 2 else cfg.multiplier
  let maxDelay := if maxDelay < baseDelay then baseDelay else maxDelay
  let jitter := if cfg.jitter < 0 then 0 else cfg.jitter
  let jitter := if jitter > 1 then 1 else jitter
  ⟨baseDelay, maxDelay, multiplier, cfg.maxAttempts, jitter⟩

/-- `NewEngine` makes sense of any settings. -/
theorem RetryConfig.normalised_normalise (cfg : RetryConfig) : cfg.normalise.Normalised where
  base_pos := by
    dsimp only [normalise]
    split
    · decide
    · exact not_le.mp ‹_›
  base_le_max := by
    dsimp only [normalise]
    rw [← max_def_lt]
    exact le_max_right _ _
  one_lt_multiplier := by
    dsimp only [normalise]
    split
    · exact one_lt_two
    · exact not_le.mp ‹_›
  jitter_nonneg := by
    dsimp only [normalise]
    split_ifs <;> linarith
  jitter_le_one := by
    dsimp only [normalise]
    split_ifs <;> linarith

/-- `retry.Engine`, as `NewEngine` makes it. -/
structure Engine where
  config : RetryConfig
  normalised : config.Normalised

/-- `NewEngine`. -/
def newEngine (cfg : RetryConfig) : Engine := ⟨cfg.normalise, cfg.normalised_normalise⟩

/-! ### `Delay` -/

/-- A value of `rand.Float64`. -/
abbrev Sample := {r : ℚ // 0 ≤ r ∧ r < 1}

/-- The conversion of a `float64` to an integer, which drops the fraction. -/
def truncate (x : ℚ) : ℤ := if 0 ≤ x then ⌊x⌋ else ⌈x⌉

/-- A delay that is not above the ceiling. -/
def clamp (ceiling delay : ℚ) : ℚ := if delay > ceiling then ceiling else delay

/-- The loop of `Delay`, with the number of rounds to go. It leaves off at the ceiling. -/
def grow (ceiling multiplier : ℚ) : ℕ → ℚ → ℚ
  | 0, delay => delay
  | n + 1, delay =>
    let delay := delay * multiplier
    if delay > ceiling then ceiling else grow ceiling multiplier n delay

/-- `Engine.Delay`, with the random number it draws if there is any jitter. -/
def Engine.delay (e : Engine) (attempt : ℤ) (r : Sample) : Duration :=
  let attempt := if attempt < 0 then 0 else attempt
  let delay := grow e.config.maxDelay e.config.multiplier attempt.toNat e.config.baseDelay
  let delay := clamp e.config.maxDelay delay
  let delay :=
    if e.config.jitter > 0 then
      clamp e.config.maxDelay (delay + delay * e.config.jitter * r.val)
    else delay
  truncate delay

/-! ### The closed form -/

/-- The delay without jitter: the base delay times a power of the multiplier, up to the
ceiling. -/
def Engine.plainDelay (e : Engine) (n : ℕ) : ℚ :=
  min e.config.maxDelay (e.config.baseDelay * e.config.multiplier ^ n)

/-- The delay with jitter: a share of the plain delay is added on top, up to the ceiling. -/
def Engine.jitteredDelay (e : Engine) (n : ℕ) (r : Sample) : ℚ :=
  min e.config.maxDelay (e.plainDelay n + e.plainDelay n * e.config.jitter * r.val)

theorem clamp_eq_min (ceiling delay : ℚ) : clamp ceiling delay = min ceiling delay := by
  unfold clamp
  split
  · exact (min_eq_left (le_of_lt ‹_›)).symm
  · exact (min_eq_right (not_lt.mp ‹_›)).symm

/-- **The loop.** Up to the ceiling it computes a power: a delay that has been above the ceiling
once would have stayed there. -/
theorem clamp_grow {ceiling multiplier delay : ℚ} (hmultiplier : 1 < multiplier)
    (hdelay : 0 ≤ delay) (n : ℕ) :
    clamp ceiling (grow ceiling multiplier n delay) = min ceiling (delay * multiplier ^ n) := by
  induction n generalizing delay with
  | zero => rw [grow, clamp_eq_min, pow_zero, mul_one]
  | succ n ih =>
      have hnext : 0 ≤ delay * multiplier :=
        mul_nonneg hdelay (zero_le_one.trans hmultiplier.le)
      rw [pow_succ', ← mul_assoc]
      unfold grow
      dsimp only
      split
      · rename_i habove
        have hpow : 1 ≤ multiplier ^ n := one_le_pow₀ hmultiplier.le
        have hstays : ceiling ≤ delay * multiplier * multiplier ^ n :=
          habove.le.trans (le_mul_of_one_le_right hnext hpow)
        rw [clamp_eq_min, min_self, min_eq_left hstays]
      · exact ih hnext

section Bounds

variable (e : Engine) (n : ℕ) (r : Sample)

theorem baseDelay_nonneg : (0 : ℚ) ≤ e.config.baseDelay :=
  mod_cast e.normalised.base_pos.le

/-- The plain delay is not below the base delay. -/
theorem baseDelay_le_plainDelay : (e.config.baseDelay : ℚ) ≤ e.plainDelay n := by
  have hpow : 1 ≤ e.config.multiplier ^ n := one_le_pow₀ e.normalised.one_lt_multiplier.le
  refine le_min ?_ (le_mul_of_one_le_right (baseDelay_nonneg e) hpow)
  exact mod_cast e.normalised.base_le_max

theorem plainDelay_nonneg : 0 ≤ e.plainDelay n :=
  (baseDelay_nonneg e).trans (baseDelay_le_plainDelay e n)

/-- The share that the jitter adds is not negative. -/
theorem share_nonneg : 0 ≤ e.config.jitter * r.val :=
  mul_nonneg e.normalised.jitter_nonneg r.property.1

/-- Jitter makes a delay longer. -/
theorem plainDelay_le_jitteredDelay : e.plainDelay n ≤ e.jitteredDelay n r := by
  refine le_min (min_le_left _ _) ?_
  rw [mul_assoc]
  exact le_add_of_nonneg_right (mul_nonneg (plainDelay_nonneg e n) (share_nonneg e r))

/-- One more failure does not make the plain delay shorter. -/
theorem plainDelay_mono : Monotone e.plainDelay := by
  intro n m hnm
  have hpow : e.config.multiplier ^ n ≤ e.config.multiplier ^ m :=
    pow_le_pow_right₀ e.normalised.one_lt_multiplier.le hnm
  exact min_le_min_left _ (mul_le_mul_of_nonneg_left hpow (baseDelay_nonneg e))

/-- Nor the delay with the same jitter. -/
theorem jitteredDelay_mono : Monotone (e.jitteredDelay · r) := by
  intro n m hnm
  have hplain := plainDelay_mono e hnm
  refine min_le_min_left _ ?_
  rw [mul_assoc, mul_assoc]
  exact add_le_add hplain (mul_le_mul_of_nonneg_right hplain (share_nonneg e r))

/-- `Delay` is its closed form, rounded down. -/
theorem delay_eq_floor (attempt : ℤ) :
    e.delay attempt r = ⌊e.jitteredDelay attempt.toNat r⌋ := by
  have hrounds : (if attempt < 0 then 0 else attempt).toNat = attempt.toNat := by
    split <;> omega
  have hjitter : (if e.config.jitter > 0 then
        clamp e.config.maxDelay (e.plainDelay attempt.toNat +
          e.plainDelay attempt.toNat * e.config.jitter * r.val)
      else e.plainDelay attempt.toNat) = e.jitteredDelay attempt.toNat r := by
    split
    · exact clamp_eq_min _ _
    · rename_i hnone
      -- without jitter the second clamp is not made, and would change nothing
      have hzero : e.config.jitter = 0 := le_antisymm (not_lt.mp hnone) e.normalised.jitter_nonneg
      rw [Engine.jitteredDelay, hzero, mul_zero, zero_mul, add_zero]
      exact (min_eq_right (min_le_left _ _)).symm
  have hnonneg : 0 ≤ e.jitteredDelay attempt.toNat r :=
    (plainDelay_nonneg e _).trans (plainDelay_le_jitteredDelay e _ r)
  unfold Engine.delay
  dsimp only
  rw [hrounds, clamp_grow e.normalised.one_lt_multiplier (baseDelay_nonneg e),
    ← Engine.plainDelay, hjitter, truncate, if_pos hnonneg]

end Bounds

/-- **Backoff.** For all settings and every random number `Delay` is the closed form, rounded down
to whole nanoseconds, with a negative number of failures counting as none. So it is between the
base delay and the ceiling, and does not decrease with the number of failures. -/
theorem delay_closedForm (cfg : RetryConfig) (r : Sample) :
    (∀ n : ℤ, (newEngine cfg).delay n r = ⌊(newEngine cfg).jitteredDelay n.toNat r⌋) ∧
      (∀ n : ℤ, (newEngine cfg).config.baseDelay ≤ (newEngine cfg).delay n r ∧
        (newEngine cfg).delay n r ≤ (newEngine cfg).config.maxDelay) ∧
      ∀ n m : ℤ, n ≤ m → (newEngine cfg).delay n r ≤ (newEngine cfg).delay m r := by
  generalize newEngine cfg = e
  refine ⟨delay_eq_floor e r, fun n => ⟨?_, ?_⟩, fun n m hnm => ?_⟩
  · rw [delay_eq_floor]
    exact Int.le_floor.mpr
      ((baseDelay_le_plainDelay e _).trans (plainDelay_le_jitteredDelay e _ r))
  · rw [delay_eq_floor]
    exact Int.floor_le_iff.mpr (lt_of_le_of_lt (min_le_left _ _) (lt_add_one _))
  · rw [delay_eq_floor, delay_eq_floor]
    exact Int.floor_le_floor (jitteredDelay_mono e r (Int.toNat_le_toNat hnm))

/-- The engine of the server: the fourth wait is eight seconds, and here half of the jitter. -/
example : (newEngine ⟨second, 30 * second, 2, 5, 1 / 10⟩).delay 3 ⟨1 / 2, by norm_num⟩ =
    8400000000 := by decide +kernel

end Conduit
