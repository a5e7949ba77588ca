import Mathlib.Analysis.SpecialFunctions.Complex.Arg
import QuantumCompiler.Numeric.RealArith

/-!
# Arithmetic on the real line

The operations of `RealArith` read as exact functions of real numbers.
-/

namespace QuantumCompiler

open Classical in
noncomputable instance : RealArith ℝ where
  toAdd := Real.instAdd
  toSub := Real.instSub
  toMul := Real.instMul
  toNeg := Real.instNeg
  toNatCast := Real.instNatCast
  div x y := x / y
  beq x y := decide (x = y)
  pi := Real.pi
  abs x := |x|
  sqrt := Real.sqrt
  sin := Real.sin
  cos := Real.cos
  exp := Real.exp
  atan2 y x := Complex.arg ⟨x, y⟩
  round x := if x < 0 then ⌈x - 1 / 2⌉ else ⌊x + 1 / 2⌋
  lt x y := decide (x < y)
  le x y := decide (x ≤ y)
  truncate x := ⌊x⌋₊

namespace RealArith

@[simp] theorem zero_real : (zero : ℝ) = 0 := Nat.cast_zero

@[simp] theorem one_real : (one : ℝ) = 1 := Nat.cast_one

@[simp] theorem two_real : (two : ℝ) = 2 := Nat.cast_ofNat

@[simp] theorem pi_real : (pi : ℝ) = Real.pi := rfl

@[simp] theorem cos_real (x : ℝ) : cos x = Real.cos x := rfl

@[simp] theorem sin_real (x : ℝ) : sin x = Real.sin x := rfl

@[simp] theorem exp_real (x : ℝ) : exp x = Real.exp x := rfl

@[simp] theorem sqrt_real (x : ℝ) : sqrt x = Real.sqrt x := rfl

@[simp] theorem abs_real (x : ℝ) : abs x = |x| := rfl

@[simp] theorem lt_real (x y : ℝ) : lt x y = true ↔ x < y := decide_eq_true_iff

@[simp] theorem le_real (x y : ℝ) : le x y = true ↔ x ≤ y := decide_eq_true_iff

@[simp] theorem isNumber_real (x : ℝ) : isNumber x = true := decide_eq_true rfl

@[simp] theorem max_real (x y : ℝ) : max x y = x ⊔ y := by
  rw [max]
  split_ifs with h
  · exact (sup_eq_right.mpr ((lt_real x y).mp h).le).symm
  · exact (sup_eq_left.mpr (not_lt.mp fun hlt => h ((lt_real x y).mpr hlt))).symm

end RealArith

theorem truncate_natCast (n : Nat) : RealArith.truncate ((n : Nat) : ℝ) = n := Nat.floor_natCast n

/-- Rounding gives an integer that is at most a half away. -/
theorem round_spec (x : ℝ) : ∃ k : ℤ, RealArith.round x = k ∧ |x - k| ≤ 1 / 2 := by
  by_cases h : x < 0
  · have hlt := Int.ceil_lt_add_one (x - 1 / 2)
    have hle := Int.le_ceil (x - 1 / 2)
    exact ⟨⌈x - 1 / 2⌉, if_pos h, abs_le.mpr ⟨by linarith, by linarith⟩⟩
  · have hle := Int.floor_le (x + 1 / 2)
    have hlt := Int.lt_floor_add_one (x + 1 / 2)
    exact ⟨⌊x + 1 / 2⌋, if_neg h, abs_le.mpr ⟨by linarith, by linarith⟩⟩

theorem round_intCast (k : ℤ) : RealArith.round (k : ℝ) = k := by
  obtain ⟨l, hl, hdist⟩ := round_spec k
  have hlt : |((k - l : ℤ) : ℝ)| < 1 := by
    push_cast
    linarith
  have heq : k - l = 0 := Int.abs_lt_one_iff.mp (by exact_mod_cast hlt)
  rw [hl, sub_eq_zero.mp heq]

end QuantumCompiler
