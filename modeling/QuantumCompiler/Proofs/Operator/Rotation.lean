import Mathlib.Analysis.SpecialFunctions.Trigonometric.Basic
import Mathlib.GroupTheory.Congruence.Basic
import QuantumCompiler.Proofs.Operator.Gate

/-!
# Rotations of a bit

A Pauli matrix gives the rotations about its axis.  All laws follow from the
products of the Pauli matrices: angles about one axis add up, a half turn about
one axis turns the others around, and a quarter turn about one axis takes the
next one to the one after it.

`Turn` is the monoid of operators on a bit up to a phase, with the rotations
`Turn.about`.
-/

namespace QuantumCompiler

open Complex

/-! ## Pauli matrices -/

/-- The three axes. -/
inductive Pauli where
  /-- The axis of the bit flip. -/
  | x
  /-- The axis of the bit flip with the phase flip. -/
  | y
  /-- The axis of the phase flip. -/
  | z
  deriving DecidableEq

namespace Pauli

/-- The next axis in the order of a right-handed system. -/
def next : Pauli → Pauli
  | x => y
  | y => z
  | z => x

/-- The matrix of an axis. -/
def matrix : Pauli → BitOperator
  | x => !![0, 1; 1, 0]
  | y => !![0, -I; I, 0]
  | z => !![1, 0; 0, -1]

theorem mul_self (a : Pauli) : a.matrix * a.matrix = 1 := by
  cases a <;> simp [matrix, Matrix.one_fin_two]

theorem mul_next (a : Pauli) : a.matrix * a.next.matrix = I • a.next.next.matrix := by
  cases a <;> simp [matrix, next]

theorem next_mul (a : Pauli) : a.next.matrix * a.matrix = -(I • a.next.next.matrix) := by
  cases a <;> simp [matrix, next]

/-- The matrices of different axes anticommute. -/
theorem anticommute {a b : Pauli} (h : a ≠ b) : a.matrix * b.matrix = -(b.matrix * a.matrix) := by
  have hnext (c : Pauli) : c.next.matrix * c.matrix = -(c.matrix * c.next.matrix) := by
    rw [next_mul, mul_next]
  have hcases : a = b.next ∨ b = a.next := by revert h; cases a <;> cases b <;> decide
  rcases hcases with rfl | rfl
  · exact hnext b
  · rw [hnext a, neg_neg]

end Pauli

/-! ## Rotations -/

/-- The rotation about an axis. -/
noncomputable def rotation (a : Pauli) (θ : ℝ) : BitOperator :=
  cos (θ / (2 : Nat)) • 1 - (I * sin (θ / (2 : Nat))) • a.matrix

theorem rotation_eq (a : Pauli) (θ : ℝ) :
    rotation a θ = cos (θ / 2) • 1 - (I * sin (θ / 2)) • a.matrix := by
  rw [rotation, Nat.cast_ofNat]

theorem rotation_zero (a : Pauli) : rotation a 0 = 1 := by simp [rotation_eq]

theorem rotation_two_pi (a : Pauli) : rotation a (2 * Real.pi) = -1 := by simp [rotation_eq]

theorem rotation_pi (a : Pauli) : rotation a Real.pi = -I • a.matrix := by simp [rotation_eq]

/-- Angles about one axis add up. -/
theorem rotation_add (a : Pauli) (θ φ : ℝ) :
    rotation a (θ + φ) = rotation a θ * rotation a φ := by
  simp only [rotation_eq, mul_sub, sub_mul, smul_mul_smul_comm, mul_one, one_mul, a.mul_self,
    ofReal_add, add_div, cos_add, sin_add, mul_mul_mul_comm I _ I, I_mul_I]
  module

/-- Every full turn changes the sign. -/
theorem rotation_sub_int (a : Pauli) (θ : ℝ) (k : ℤ) :
    rotation a (θ - k * (2 * Real.pi)) = (-1 : ℂ) ^ k • rotation a θ := by
  have hangle : ((θ - k * (2 * Real.pi) : ℝ) / 2 : ℂ) = (θ / 2 - k * Real.pi : ℝ) := by
    push_cast
    ring
  have hcos : cos (θ / 2 - k * Real.pi : ℝ) = (-1) ^ k * cos (θ / 2) := by
    rw [← ofReal_cos, Real.cos_sub_int_mul_pi]
    push_cast
    rfl
  have hsin : sin (θ / 2 - k * Real.pi : ℝ) = (-1) ^ k * sin (θ / 2) := by
    rw [← ofReal_sin, Real.sin_sub_int_mul_pi]
    push_cast
    rfl
  rw [rotation_eq, rotation_eq, hangle, hcos, hsin, smul_sub, smul_smul, smul_smul, mul_left_comm]

/-- The matrix of an axis turns the others around. -/
theorem matrix_mul_rotation {a b : Pauli} (h : a ≠ b) (θ : ℝ) :
    a.matrix * rotation b θ = rotation b (-θ) * a.matrix := by
  simp only [rotation_eq, mul_sub, sub_mul, mul_smul_comm, smul_mul_assoc, mul_one, one_mul,
    Pauli.anticommute h, ofReal_neg, neg_div, cos_neg, sin_neg]
  module

/-- The cosine and the sine of an eighth of a turn. -/
noncomputable def rootHalf : ℂ := ((√(2 : Nat))⁻¹ : ℝ)

theorem rootHalf_eq : rootHalf = (√2 / 2 : ℝ) := by
  rw [rootHalf, Real.sqrt_div_self', Nat.cast_ofNat, one_div]

theorem rootHalf_mul_self : rootHalf * rootHalf = 1 / 2 := by
  rw [rootHalf_eq, ← ofReal_mul, div_mul_div_comm, Real.mul_self_sqrt zero_le_two]
  norm_num

theorem cos_eighth : cos (Real.pi / 4) = rootHalf := by
  rw [← ofReal_ofNat, ← ofReal_div, ← ofReal_cos, Real.cos_pi_div_four, rootHalf_eq]

theorem sin_eighth : sin (Real.pi / 4) = rootHalf := by
  rw [← ofReal_ofNat, ← ofReal_div, ← ofReal_sin, Real.sin_pi_div_four, rootHalf_eq]

theorem rotation_quarter (a : Pauli) :
    rotation a (Real.pi / 2) = rootHalf • (1 - I • a.matrix) := by
  have hangle : ((Real.pi / 2 : ℝ) : ℂ) / 2 = Real.pi / 4 := by
    push_cast
    ring
  rw [rotation_eq, hangle, cos_eighth, sin_eighth]
  module

theorem rotation_neg_quarter (a : Pauli) :
    rotation a (-(Real.pi / 2)) = rootHalf • (1 + I • a.matrix) := by
  have hangle : ((-(Real.pi / 2) : ℝ) : ℂ) / 2 = -(Real.pi / 4) := by
    push_cast
    ring
  rw [rotation_eq, hangle, cos_neg, sin_neg, cos_eighth, sin_eighth]
  module

/-- A quarter turn about an axis takes the next one to the one after it. -/
theorem quarter_mul_matrix (a : Pauli) : rotation a (Real.pi / 2) * a.next.matrix =
    a.next.next.matrix * rotation a (Real.pi / 2) := by
  have hback : a.next.next.matrix * a.matrix = I • a.next.matrix := by
    cases a <;> simp [Pauli.matrix, Pauli.next]
  simp only [rotation_quarter, mul_sub, sub_mul, mul_smul_comm, smul_mul_assoc, mul_one, one_mul,
    a.mul_next, hback, smul_smul, I_mul_I]
  module

theorem quarter_mul_rotation (a : Pauli) (θ : ℝ) : rotation a (Real.pi / 2) * rotation a.next θ =
    rotation a.next.next θ * rotation a (Real.pi / 2) := by
  have hlinear (b : Pauli) : rotation b θ = cos (θ / 2) • 1 - (I * sin (θ / 2)) • b.matrix := rfl
  rw [hlinear a.next, hlinear a.next.next, mul_sub, sub_mul, mul_smul_comm, mul_smul_comm,
    quarter_mul_matrix, smul_mul_assoc, smul_mul_assoc, mul_one, one_mul]

/-! ## Matrices -/

/-- The phase gate with an angle. -/
noncomputable def phaseShift (θ : ℝ) : BitOperator := !![1, 0; 0, exp (θ * I)]

theorem rotation_x (θ : ℝ) : rotation .x θ =
    !![cos (θ / 2), -(I * sin (θ / 2)); -(I * sin (θ / 2)), cos (θ / 2)] := by
  simp [rotation_eq, Pauli.matrix, Matrix.one_fin_two]

theorem rotation_y (θ : ℝ) : rotation .y θ =
    !![cos (θ / 2), -sin (θ / 2); sin (θ / 2), cos (θ / 2)] := by
  have hsquare : I * sin (θ / 2) * I = -sin (θ / 2) := by
    rw [mul_right_comm, I_mul_I, neg_one_mul]
  simp [rotation_eq, Pauli.matrix, Matrix.one_fin_two, hsquare]

theorem rotation_z (θ : ℝ) : rotation .z θ = !![exp (-(θ / 2 * I)), 0; 0, exp (θ / 2 * I)] := by
  have hneg : exp (-(θ / 2 * I)) = cos (θ / 2) - I * sin (θ / 2) := by
    rw [← neg_mul, exp_mul_I, cos_neg, sin_neg, neg_mul, mul_comm I, sub_eq_add_neg]
  rw [hneg, exp_mul_I]
  ext i j
  fin_cases i <;> fin_cases j <;> simp [rotation_eq, Pauli.matrix, mul_comm I]

/-- A phase gate is a rotation up to a phase. -/
theorem phaseShift_eq (θ : ℝ) : phaseShift θ = exp (θ / 2 * I) • rotation .z θ := by
  rw [rotation_z, phaseShift]
  simp [← exp_add, ← add_mul]

theorem phaseShift_zero : phaseShift 0 = 1 := by
  simp [phaseShift, Matrix.one_fin_two]

theorem phaseShift_add (θ φ : ℝ) : phaseShift (θ + φ) = phaseShift θ * phaseShift φ := by
  simp [phaseShift, add_mul, exp_add]

theorem phaseShift_sub_int (θ : ℝ) (k : ℤ) :
    phaseShift (θ - k * (2 * Real.pi)) = phaseShift θ := by
  have hangle : ((θ - k * (2 * Real.pi) : ℝ) * I : ℂ) = θ * I - k * (2 * Real.pi * I) := by
    push_cast
    ring
  rw [phaseShift, phaseShift, hangle, exp_periodic.sub_int_mul_eq]

/-- The bit flip turns a phase gate around, up to its phase. -/
theorem flip_mul_phaseShift (θ : ℝ) :
    Pauli.x.matrix * phaseShift θ = exp (θ * I) • (phaseShift (-θ) * Pauli.x.matrix) := by
  simp [phaseShift, Pauli.matrix, ← exp_add]

/-- The matrix of the Hadamard gate. -/
noncomputable def hadamardMatrix : BitOperator := rootHalf • (Pauli.x.matrix + Pauli.z.matrix)

theorem hadamardMatrix_mul_self : hadamardMatrix * hadamardMatrix = 1 := by
  have hanti : Pauli.z.matrix * Pauli.x.matrix = -(Pauli.x.matrix * Pauli.z.matrix) :=
    Pauli.anticommute (by decide)
  rw [hadamardMatrix, smul_mul_smul_comm, rootHalf_mul_self, add_mul, mul_add, mul_add,
    Pauli.mul_self, Pauli.mul_self, hanti]
  module

/-- The Hadamard gate exchanges the bit flip and the phase flip. -/
theorem hadamardMatrix_mul_z :
    hadamardMatrix * Pauli.z.matrix = Pauli.x.matrix * hadamardMatrix := by
  rw [hadamardMatrix, smul_mul_assoc, mul_smul_comm, add_mul, mul_add, Pauli.mul_self,
    Pauli.mul_self, add_comm]

theorem hadamardMatrix_mul_rotation (θ : ℝ) :
    hadamardMatrix * rotation .z θ = rotation .x θ * hadamardMatrix := by
  rw [rotation_eq, rotation_eq, mul_sub, sub_mul, mul_smul_comm, mul_smul_comm, smul_mul_assoc,
    smul_mul_assoc, hadamardMatrix_mul_z, mul_one, one_mul]

theorem hadamardMatrix_mul_x :
    hadamardMatrix * Pauli.x.matrix = Pauli.z.matrix * hadamardMatrix := by
  rw [hadamardMatrix, smul_mul_assoc, mul_smul_comm, add_mul, mul_add, Pauli.mul_self,
    Pauli.mul_self, add_comm]

/-! ## Operators up to a phase -/

/-- Elements of an algebra that differ by a factor of modulus one. -/
def phases (A : Type*) [Ring A] [Algebra ℂ A] : Con A where
  r a b := ∃ phase : ℂ, ‖phase‖ = 1 ∧ a = phase • b
  iseqv :=
    { refl := fun a => ⟨1, norm_one, (one_smul ℂ a).symm⟩
      symm := by
        rintro a b ⟨phase, hphase, rfl⟩
        have hne : phase ≠ 0 := norm_ne_zero_iff.mp (by rw [hphase]; exact one_ne_zero)
        exact ⟨phase⁻¹, by rw [norm_inv, hphase, inv_one], (inv_smul_smul₀ hne b).symm⟩
      trans := by
        rintro a b c ⟨phase, hphase, rfl⟩ ⟨phase', hphase', rfl⟩
        exact ⟨phase * phase', by rw [norm_mul, hphase, hphase', mul_one], smul_smul _ _ _⟩ }
  mul' := by
    rintro a b c d ⟨phase, hphase, rfl⟩ ⟨phase', hphase', rfl⟩
    exact ⟨phase * phase', by rw [norm_mul, hphase, hphase', mul_one], smul_mul_smul_comm _ _ _ _⟩

/-- An operator on a bit up to a phase. -/
abbrev Turn := (phases BitOperator).Quotient

namespace Turn

/-- A factor of modulus one does not matter. -/
theorem coe_smul {phase : ℂ} (h : ‖phase‖ = 1) (M : BitOperator) :
    ((phase • M : BitOperator) : Turn) = M :=
  (Con.eq _).mpr ⟨phase, h, rfl⟩

/-- The rotation about an axis. -/
noncomputable def about (a : Pauli) (θ : ℝ) : Turn := rotation a θ

@[simp] theorem about_zero (a : Pauli) : about a 0 = 1 := by
  rw [about, rotation_zero, Con.coe_one]

theorem about_add (a : Pauli) (θ φ : ℝ) : about a (θ + φ) = about a θ * about a φ := by
  rw [about, rotation_add, Con.coe_mul, about, about]

@[simp] theorem about_two_pi (a : Pauli) : about a (2 * Real.pi) = 1 := by
  rw [about, rotation_two_pi, ← neg_one_smul ℂ, coe_smul (by simp), Con.coe_one]

theorem about_sub_int (a : Pauli) (θ : ℝ) (k : ℤ) :
    about a (θ - k * (2 * Real.pi)) = about a θ := by
  rw [about, rotation_sub_int, coe_smul (by simp), about]

/-- The matrix of an axis is a half turn. -/
theorem coe_matrix (a : Pauli) : (a.matrix : Turn) = about a Real.pi := by
  rw [about, rotation_pi, coe_smul (by simp)]

/-- A half turn about an axis turns the others around. -/
theorem half_turn {a b : Pauli} (h : a ≠ b) (θ : ℝ) :
    about a Real.pi * about b θ = about b (-θ) * about a Real.pi := by
  rw [← coe_matrix, about, ← Con.coe_mul, matrix_mul_rotation h, Con.coe_mul, about]

/-- A quarter turn about an axis takes the next one to the one after it. -/
theorem quarter_turn (a : Pauli) (θ : ℝ) :
    about a (Real.pi / 2) * about a.next θ = about a.next.next θ * about a (Real.pi / 2) := by
  rw [about, about, ← Con.coe_mul, quarter_mul_rotation, Con.coe_mul, about]

@[simp] theorem about_neg_mul (a : Pauli) (θ : ℝ) : about a (-θ) * about a θ = 1 := by
  rw [← about_add, neg_add_cancel, about_zero]

@[simp] theorem about_mul_neg (a : Pauli) (θ : ℝ) : about a θ * about a (-θ) = 1 := by
  rw [← about_add, add_neg_cancel, about_zero]

theorem about_half_mul_half (a : Pauli) (θ : ℝ) :
    about a (θ / 2) * about a (θ / 2) = about a θ := by
  rw [← about_add, add_halves]

@[simp] theorem about_pi_mul_pi (a : Pauli) : about a Real.pi * about a Real.pi = 1 := by
  rw [← about_add, ← two_mul, about_two_pi]

/-- A phase gate is a rotation about the third axis. -/
theorem coe_phaseShift (θ : ℝ) : (phaseShift θ : Turn) = about .z θ := by
  have hnorm : ‖exp (θ / 2 * I)‖ = 1 := by
    simpa using norm_exp_ofReal_mul_I (θ / 2)
  rw [phaseShift_eq, coe_smul hnorm, about]

/-! ### Turns of the axes -/

theorem z_quarter_x (θ : ℝ) :
    about .z (Real.pi / 2) * (about .x θ * about .z (-(Real.pi / 2))) = about .y θ := by
  have hturn : about .z (Real.pi / 2) * about .x θ = about .y θ * about .z (Real.pi / 2) :=
    quarter_turn .z θ
  rw [← mul_assoc, hturn, mul_assoc, about_mul_neg, mul_one]

theorem z_neg_quarter_y (θ : ℝ) :
    about .z (-(Real.pi / 2)) * (about .y θ * about .z (Real.pi / 2)) = about .x θ := by
  have hturn : about .z (Real.pi / 2) * about .x θ = about .y θ * about .z (Real.pi / 2) :=
    quarter_turn .z θ
  rw [← hturn, ← mul_assoc, about_neg_mul, one_mul]

theorem x_neg_quarter_z (θ : ℝ) :
    about .x (-(Real.pi / 2)) * (about .z θ * about .x (Real.pi / 2)) = about .y θ := by
  have hturn : about .x (Real.pi / 2) * about .y θ = about .z θ * about .x (Real.pi / 2) :=
    quarter_turn .x θ
  rw [← hturn, ← mul_assoc, about_neg_mul, one_mul]

/-- Half turns about the second and the third axis make one about the first. -/
theorem y_half_z_half : about .y Real.pi * about .z Real.pi = about .x Real.pi := by
  have hflip : about .y Real.pi * about .z (Real.pi / 2) =
      about .z (-(Real.pi / 2)) * about .y Real.pi := half_turn (by decide) _
  rw [← about_half_mul_half .z, ← mul_assoc, hflip, mul_assoc, z_neg_quarter_y]

/-- The Hadamard gate. -/
noncomputable def hadamard : Turn := hadamardMatrix

/-- The Hadamard gate is a quarter turn after a half turn. -/
theorem y_quarter_z_half : about .y (Real.pi / 2) * about .z Real.pi = hadamard := by
  have hyz : Pauli.y.matrix * Pauli.z.matrix = I • Pauli.x.matrix := Pauli.mul_next .y
  have hproduct : rotation .y (Real.pi / 2) * Pauli.z.matrix = hadamardMatrix := by
    rw [hadamardMatrix, rotation_quarter, smul_mul_assoc, sub_mul, smul_mul_assoc, one_mul, hyz,
      smul_smul, I_mul_I, neg_one_smul, sub_neg_eq_add, add_comm]
  rw [← coe_matrix, about, ← Con.coe_mul, hproduct, hadamard]

theorem hadamard_mul_self : hadamard * hadamard = 1 := by
  rw [hadamard, ← Con.coe_mul, hadamardMatrix_mul_self, Con.coe_one]

/-- The Hadamard turn takes the third axis to the first. -/
theorem hadamard_z (θ : ℝ) : hadamard * (about .z θ * hadamard) = about .x θ := by
  have hturn : hadamard * about .z θ = about .x θ * hadamard := by
    rw [hadamard, about, ← Con.coe_mul, hadamardMatrix_mul_rotation, Con.coe_mul, about]
  rw [← mul_assoc, hturn, mul_assoc, hadamard_mul_self, mul_one]

theorem hadamard_x (θ : ℝ) : hadamard * (about .x θ * hadamard) = about .z θ := by
  calc hadamard * (about .x θ * hadamard)
      = hadamard * hadamard * about .z θ * (hadamard * hadamard) := by
        rw [← hadamard_z]
        simp only [mul_assoc]
    _ = about .z θ := by rw [hadamard_mul_self, one_mul, mul_one]

end Turn

end QuantumCompiler
