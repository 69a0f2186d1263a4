import Mathlib.Analysis.Complex.Exponential
import Mathlib.Analysis.Complex.Basic
import Mathlib.Analysis.Complex.Trigonometric
import Mathlib.NumberTheory.Zsqrtd.GaussianInt
import Mathlib.Algebra.Order.Floor.Semiring
import Mathlib.Tactic.Linarith
import Mathlib.Tactic.Positivity

/-!
Sines of whole numbers, by exact arithmetic. The power series of the exponential
at the imaginary unit, cut after 20 terms, is a Gaussian integer over 19!; its
powers approximate the points of the unit circle at whole angles. From an
integer inequality about such a power follows the whole part of a multiple of a
sine.
-/
namespace BlackCat.Sines

open Complex

/-- 19!, the denominator of the cut series. -/
def scale : ℕ := 121645100408832000

/-- The numerator of the cut series at the imaginary unit. -/
def turn : GaussianInt := ⟨65725128248453315, 102360822438075317⟩

theorem turn_eq : (turn : ℂ) / scale = ∑ m ∈ Finset.range 20, I ^ m / (m.factorial : ℂ) := by
  have hpow : ∀ k, I ^ (k + 4) = I ^ k := by
    intro k
    rw [pow_add, I_pow_four, mul_one]
  have hterms : ∑ m ∈ Finset.range 20, I ^ m / (m.factorial : ℂ) =
      65725128248453315 / 121645100408832000 + 102360822438075317 / 121645100408832000 * I := by
    simp only [Finset.sum_range_succ, Finset.sum_range_zero, hpow, I_pow_three, I_sq, pow_one,
      pow_zero, Nat.factorial]
    push_cast
    ring
  rw [hterms, GaussianInt.toComplex_def]
  simp only [turn, scale]
  push_cast
  ring

theorem norm_exp_sub_turn : ‖exp I - turn / scale‖ ≤ (1 / 2) ^ 60 := by
  have hbound := exp_bound (x := I) (by rw [norm_I]) (n := 20) (by norm_num)
  rw [norm_I, one_pow, one_mul, ← turn_eq] at hbound
  refine hbound.trans ?_
  norm_num [Nat.factorial]

theorem norm_pow_sub_pow_le {u w : ℂ} {ε : ℝ} (hu : ‖u‖ ≤ 1) (h : ‖w - u‖ ≤ ε) (n : ℕ) :
    ‖w ^ n - u ^ n‖ ≤ (1 + ε) ^ n - 1 := by
  have hε : 0 ≤ ε := (norm_nonneg _).trans h
  have hw : ‖w‖ ≤ 1 + ε := by
    have := norm_le_norm_add_norm_sub' w u
    linarith
  induction n with
  | zero => simp
  | succ n ih =>
    have hsplit : w ^ (n + 1) - u ^ (n + 1) = w ^ n * (w - u) + (w ^ n - u ^ n) * u := by ring
    have hpow : ‖w ^ n‖ ≤ (1 + ε) ^ n := by
      rw [norm_pow]
      exact pow_le_pow_left₀ (norm_nonneg w) hw n
    have hfirst : ‖w ^ n * (w - u)‖ ≤ (1 + ε) ^ n * ε := by
      rw [norm_mul]
      exact mul_le_mul hpow h (norm_nonneg _) (by positivity)
    have hsecond : ‖(w ^ n - u ^ n) * u‖ ≤ (1 + ε) ^ n - 1 := by
      rw [norm_mul]
      exact (mul_le_of_le_one_right (norm_nonneg _) hu).trans ih
    calc ‖w ^ (n + 1) - u ^ (n + 1)‖
        ≤ ‖w ^ n * (w - u)‖ + ‖(w ^ n - u ^ n) * u‖ := by
          rw [hsplit]
          exact norm_add_le _ _
      _ ≤ (1 + ε) ^ n * ε + ((1 + ε) ^ n - 1) := add_le_add hfirst hsecond
      _ = (1 + ε) ^ (n + 1) - 1 := by ring

theorem exp_I_pow_im (n : ℕ) : (exp I ^ n).im = Real.sin n := by
  rw [← exp_nat_mul, exp_mul_I, ← ofReal_natCast, ← ofReal_cos, ← ofReal_sin, add_im, ofReal_im,
    im_ofReal_mul, I_im, mul_one, zero_add]

theorem abs_sin_sub_le (n : ℕ) (hn : n ≤ 64) :
    |((turn ^ n).im : ℝ) / (scale : ℝ) ^ n - Real.sin n| ≤ (1 / 2) ^ 50 := by
  have hclose : ‖(turn / scale : ℂ) - exp I‖ ≤ (1 / 2) ^ 60 := by
    rw [norm_sub_rev]
    exact norm_exp_sub_turn
  have hunit : ‖exp I‖ ≤ 1 := by
    have := norm_exp_ofReal_mul_I 1
    rw [ofReal_one, one_mul] at this
    exact this.le
  have hpow := norm_pow_sub_pow_le hunit hclose n
  have him : ((turn / scale : ℂ) ^ n - exp I ^ n).im =
      ((turn ^ n).im : ℝ) / (scale : ℝ) ^ n - Real.sin n := by
    have hquot : (turn / scale : ℂ) ^ n =
        ((turn ^ n : GaussianInt) : ℂ) / ((scale ^ n : ℝ) : ℂ) := by
      rw [div_pow, map_pow]
      push_cast
      rfl
    rw [sub_im, exp_I_pow_im, hquot, div_ofReal_im, GaussianInt.intCast_im]
  have hgrow : ((1 : ℝ) + (1 / 2) ^ 60) ^ n ≤ (1 + (1 / 2) ^ 60) ^ 64 :=
    pow_le_pow_right₀ (by norm_num) hn
  have hsmall : ((1 : ℝ) + (1 / 2) ^ 60) ^ 64 - 1 ≤ (1 / 2) ^ 50 := by norm_num
  rw [← him]
  exact (abs_im_le_norm _).trans (hpow.trans (by linarith))

theorem floor_mul_abs_sin (n m k : ℕ) (hn : n ≤ 64)
    (hlow : 2 ^ 50 * k * scale ^ n + m * scale ^ n ≤ 2 ^ 50 * m * (turn ^ n).im.natAbs)
    (hhigh : 2 ^ 50 * m * (turn ^ n).im.natAbs + m * scale ^ n < 2 ^ 50 * (k + 1) * scale ^ n) :
    ⌊(m : ℝ) * |Real.sin n|⌋₊ = k := by
  have hscale : (0 : ℝ) < (scale : ℝ) ^ n := by
    have : 0 < scale := by decide
    positivity
  have hclose := (abs_abs_sub_abs_le _ _).trans (abs_sin_sub_le n hn)
  rw [abs_div, abs_of_pos hscale, ← Int.cast_abs, ← Int.natCast_natAbs, Int.cast_natCast] at hclose
  obtain ⟨hbelow, habove⟩ := abs_le.mp hclose
  set a : ℝ := ((turn ^ n).im.natAbs : ℝ) / (scale : ℝ) ^ n with ha
  have hm : (0 : ℝ) ≤ m := Nat.cast_nonneg m
  have hlow' : (k : ℝ) + m * (1 / 2) ^ 50 ≤ m * a := by
    have : ((2 : ℝ) ^ 50 * k * (scale : ℝ) ^ n + m * (scale : ℝ) ^ n) ≤
        2 ^ 50 * m * (turn ^ n).im.natAbs := by exact_mod_cast hlow
    rw [ha, mul_div_assoc', le_div_iff₀ hscale]
    linarith
  have hhigh' : m * a + m * (1 / 2) ^ 50 < (k : ℝ) + 1 := by
    have : (2 : ℝ) ^ 50 * m * (turn ^ n).im.natAbs + m * (scale : ℝ) ^ n <
        2 ^ 50 * (k + 1) * (scale : ℝ) ^ n := by exact_mod_cast hhigh
    rw [ha, mul_div_assoc', ← lt_sub_iff_add_lt, div_lt_iff₀ hscale]
    linarith
  rw [Nat.floor_eq_iff (by positivity)]
  constructor
  · nlinarith
  · nlinarith

end BlackCat.Sines
