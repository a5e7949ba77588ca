import QuantumCompiler.Proofs.Numeric.Complex
import QuantumCompiler.Peephole.Rule

/-!
# Angles on the real line

An angle is reduced by a multiple of its period to the multiple that is next to
zero (`abs_reduce_le`).  What the optimiser keeps of the reduced angle differs
from it only below the tolerance (`normalise_real`), and angles that differ by
full turns count as the same axis (`sameAxis_of_fullTurns`).
-/

namespace QuantumCompiler.Peephole

/-! ## The tolerance -/

theorem tolerance_real : (tolerance : ℝ) = 1 / 10 ^ 9 := by
  rw [tolerance, RealArith.one_real, show Nat.pow 10 9 = 10 ^ 9 from rfl]
  norm_cast

theorem tolerance_pos : (0 : ℝ) < tolerance := by
  rw [tolerance_real]
  norm_num

theorem tolerance_lt_half : (tolerance : ℝ) < 1 / 2 := by
  rw [tolerance_real]
  norm_num

/-! ## Reduced angles -/

/-- An angle without the nearest multiple of a period. -/
noncomputable def reduce (θ period : ℝ) : ℝ := θ - period * RealArith.round (θ / period)

/-- The reduced angle differs from the angle by a multiple of the period. -/
theorem reduce_eq_sub (θ period : ℝ) : ∃ k : ℤ, reduce θ period = θ - k * period := by
  obtain ⟨k, hk, -⟩ := round_spec (θ / period)
  exact ⟨k, by rw [reduce, hk, mul_comm]⟩

theorem abs_reduce_le (θ : ℝ) {period : ℝ} (hperiod : 0 < period) :
    |reduce θ period| ≤ period / 2 := by
  obtain ⟨k, hk, hdist⟩ := round_spec (θ / period)
  have hscale : reduce θ period = (θ / period - k) * period := by
    rw [reduce, hk]
    field_simp
  rw [hscale, abs_mul, abs_of_pos hperiod]
  linarith [mul_le_mul_of_nonneg_right hdist hperiod.le]

/-- A multiple of the period is reduced to zero. -/
theorem reduce_intCast_mul (k : ℤ) {period : ℝ} (hperiod : period ≠ 0) :
    reduce (k * period) period = 0 := by
  rw [reduce, mul_div_cancel_right₀ _ hperiod, round_intCast, mul_comm, sub_self]

/-- A reduced angle below the tolerance becomes zero, and any other one is kept. -/
theorem normalise_real (θ period : ℝ) :
    normalise θ period = if |reduce θ period| < tolerance then 0 else reduce θ period := by
  simp only [normalise, RealArith.lt_real, RealArith.abs_real, RealArith.zero_real]
  rfl

theorem normalise_zero (period : ℝ) : normalise 0 period = 0 := by
  have hround : RealArith.round (0 : ℝ) = 0 := by
    simpa using round_intCast 0
  have hreduce : reduce 0 period = 0 := by
    rw [reduce, zero_div, hround, mul_zero, sub_zero]
  rw [normalise_real, hreduce, ite_self]

theorem turn_real : (turn : ℝ) = 2 * Real.pi := by
  rw [turn, RealArith.two_real, RealArith.pi_real]

/-- Axes that differ by full turns are the same. -/
theorem sameAxis_of_fullTurns {a b : Operation ℝ}
    (h : a.kind = .gate .prx → ∃ k : ℤ, a.param 1 - b.param 1 = k * (2 * Real.pi)) :
    sameAxis a b = true := by
  rw [sameAxis]
  split_ifs with hkind
  · obtain ⟨k, hk⟩ := h (beq_iff_eq.mp hkind)
    have hreduce : reduce (k * turn) turn = 0 :=
      reduce_intCast_mul k (turn_real ▸ Real.two_pi_pos.ne')
    rw [RealArith.lt_real, RealArith.abs_real, hk, ← turn_real, normalise_real, hreduce,
      ite_self, abs_zero]
    exact tolerance_pos
  · rfl

end QuantumCompiler.Peephole
