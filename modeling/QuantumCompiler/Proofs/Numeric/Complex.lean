import QuantumCompiler.Proofs.Numeric.RealLine
import QuantumCompiler.Numeric.Amplitude

/-!
# Amplitudes as complex numbers

On the real line an amplitude is a complex number, and the operations on
amplitudes are those on complex numbers.
-/

namespace QuantumCompiler

namespace RealArith

/-- Scaling by the longer coordinate does not change the length. -/
theorem mul_sqrt_one_add_div {p : ℝ} (hp : 0 ≤ p) (hne : p ≠ 0) (q : ℝ) :
    p * Real.sqrt (1 + q / p * (q / p)) = Real.sqrt (p ^ 2 + q ^ 2) := by
  have hsq : p ^ 2 + q ^ 2 = p ^ 2 * (1 + q / p * (q / p)) := by
    field_simp
  rw [hsq, Real.sqrt_mul (sq_nonneg p), Real.sqrt_sq hp]

theorem hypot_real (x y : ℝ) : hypot x y = Real.sqrt (x ^ 2 + y ^ 2) := by
  have hscale (p q : ℝ) (hp : 0 ≤ p) (hqp : |q| ≤ p) :
      (if (p == zero) = true then zero else p * sqrt (one + q / p * (q / p))) =
        Real.sqrt (p ^ 2 + q ^ 2) := by
    by_cases hne : p = 0
    · subst hne
      have hq : q = 0 := abs_nonpos_iff.mp hqp
      simp [hq]
    · have hbeq : ((p == zero) = true) ↔ p = 0 := by
        rw [zero_real]
        exact decide_eq_true_iff
      rw [if_neg (mt hbeq.mp hne), one_real]
      exact mul_sqrt_one_add_div hp hne q
  rw [hypot]
  simp only [abs_real, isNumber_real, Bool.not_true, Bool.false_eq_true, if_false]
  rw [← sq_abs x, ← sq_abs y]
  by_cases hlt : |x| < |y|
  · simp only [lt_real, hlt, if_true]
    rw [add_comm (|x| ^ 2)]
    exact hscale |y| |x| (abs_nonneg y) (by rw [abs_abs]; exact hlt.le)
  · simp only [lt_real, hlt, if_false]
    exact hscale |x| |y| (abs_nonneg x) (by rw [abs_abs]; exact not_lt.mp hlt)

end RealArith

namespace Amplitude

/-- The complex number of an amplitude. -/
def toComplex (x : Amplitude ℝ) : ℂ := ⟨x.re, x.im⟩

theorem toComplex_injective : Function.Injective toComplex := by
  rintro ⟨a, b⟩ ⟨c, d⟩ h
  obtain ⟨hre, him⟩ := Complex.mk.inj h
  exact congrArg₂ mk hre him

@[simp] theorem toComplex_add (x y : Amplitude ℝ) :
    (x + y).toComplex = x.toComplex + y.toComplex := rfl

@[simp] theorem toComplex_sub (x y : Amplitude ℝ) :
    (x - y).toComplex = x.toComplex - y.toComplex := rfl

@[simp] theorem toComplex_neg (x : Amplitude ℝ) : (-x).toComplex = -x.toComplex := rfl

@[simp] theorem toComplex_mul (x y : Amplitude ℝ) :
    (x * y).toComplex = x.toComplex * y.toComplex := rfl

@[simp] theorem toComplex_ofReal (x : ℝ) : (ofReal x).toComplex = x :=
  Complex.ext rfl RealArith.zero_real

@[simp] theorem toComplex_zero : (zero : Amplitude ℝ).toComplex = 0 := by
  rw [zero, toComplex_ofReal, RealArith.zero_real, Complex.ofReal_zero]

@[simp] theorem toComplex_one : (one : Amplitude ℝ).toComplex = 1 := by
  rw [one, toComplex_ofReal, RealArith.one_real, Complex.ofReal_one]

@[simp] theorem toComplex_i : (i : Amplitude ℝ).toComplex = Complex.I :=
  Complex.ext RealArith.zero_real RealArith.one_real

@[simp] theorem toComplex_negI : (negI : Amplitude ℝ).toComplex = -Complex.I :=
  Complex.ext (by simp [toComplex, negI]) (by simp [toComplex, negI])

@[simp] theorem toComplex_cis (θ : ℝ) : (cis θ).toComplex = Complex.exp (θ * Complex.I) :=
  Complex.ext (Complex.exp_ofReal_mul_I_re θ).symm (Complex.exp_ofReal_mul_I_im θ).symm

@[simp] theorem isZero_iff (x : Amplitude ℝ) : x.isZero = true ↔ x.toComplex = 0 := by
  rw [isZero, Bool.and_eq_true, Complex.ext_iff, RealArith.zero_real]
  exact and_congr decide_eq_true_iff decide_eq_true_iff

theorem arg_eq_arg (x : Amplitude ℝ) : x.arg = x.toComplex.arg := rfl

theorem one_div_one : (one / one : Amplitude ℝ) = one := by
  show div one one = one
  simp [div, one, ofReal]

theorem abs_eq_norm (x : Amplitude ℝ) : x.abs = ‖x.toComplex‖ := by
  rw [abs, RealArith.hypot_real, Complex.norm_def, Complex.normSq_apply, toComplex, ← sq, ← sq]

end Amplitude

end QuantumCompiler
