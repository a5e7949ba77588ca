import Mathlib.Algebra.Algebra.Subalgebra.Lattice
import Mathlib.Analysis.Complex.Basic
import Mathlib.LinearAlgebra.Matrix.Notation

/-!
# Operators on a register

A register of `n` wires has a basis state for every choice of bits, and an
operator on it is a complex matrix over the basis states.  `onWire q` lets a
matrix on one bit act on the wire `q`.  It is a homomorphism of algebras, and
operators on different wires commute.

Every operator can be written as a matrix with four blocks along a wire
(`blocks`), where the blocks leave the wire alone.  Such matrices are
multiplied block by block (`blocks_mul`).
-/

namespace QuantumCompiler

/-- A basis state of a register: a bit for every wire. -/
abbrev Basis (n : Nat) := Fin n → Fin 2

/-- An operator on a register, by its entries. -/
abbrev Operator (n : Nat) := Matrix (Basis n) (Basis n) ℂ

/-- An operator on a single bit. -/
abbrev BitOperator := Matrix (Fin 2) (Fin 2) ℂ

namespace Operator

variable {n : Nat} {p q : Fin n}

/-- The entries of a bit operator that acts on a wire: it leaves the bits of all
other wires as they are. -/
def wireEntries (q : Fin n) (M : BitOperator) : Operator n :=
  .of fun x y => if ∀ p, p ≠ q → x p = y p then M (x q) (y q) else 0

/-- A product with an operator on one wire is a sum over the bit of this wire. -/
theorem wireEntries_mul_apply (M : BitOperator) (A : Operator n) (x y : Basis n) :
    (wireEntries q M * A) x y = ∑ b, M (x q) b * A (Function.update x q b) y := by
  rw [Matrix.mul_apply]
  refine (Fintype.sum_of_injective (Function.update x q) (Function.update_injective x q) _ _
    (fun z hz => ?_) fun b => ?_).symm
  · have hdiffer : ¬ ∀ p, p ≠ q → x p = z p := by
      intro h
      exact hz ⟨z q, Function.update_eq_iff.mpr ⟨rfl, h⟩⟩
    rw [wireEntries, Matrix.of_apply, if_neg hdiffer, zero_mul]
  · have hagree : ∀ p, p ≠ q → x p = Function.update x q b p := by
      intro p hp
      rw [Function.update_of_ne hp]
    rw [wireEntries, Matrix.of_apply, if_pos hagree, Function.update_self]

theorem wireEntries_one : wireEntries q 1 = (1 : Operator n) := by
  ext x y
  rw [wireEntries, Matrix.of_apply, Matrix.one_apply, Matrix.one_apply]
  by_cases hxy : x = y
  · simp [hxy]
  · rw [if_neg hxy]
    split_ifs with hagree hq
    · refine absurd (funext fun p => ?_) hxy
      by_cases hp : p = q
      · rw [hp, hq]
      · exact hagree p hp
    · rfl
    · rfl

theorem wireEntries_mul (M N : BitOperator) :
    wireEntries q (M * N) = wireEntries q M * wireEntries q N := by
  ext x y
  have hagree (b : Fin 2) : (∀ p, p ≠ q → Function.update x q b p = y p) ↔
      ∀ p, p ≠ q → x p = y p :=
    forall₂_congr fun p hp => by rw [Function.update_of_ne hp]
  rw [wireEntries_mul_apply]
  simp only [wireEntries, Matrix.of_apply, hagree, Function.update_self, Matrix.mul_apply]
  split_ifs
  · rfl
  · simp

/-- A bit operator that acts on a wire. -/
def onWire (q : Fin n) : BitOperator →ₐ[ℂ] Operator n :=
  AlgHom.ofLinearMap
    { toFun := wireEntries q
      map_add' := fun M N => by
        ext x y
        simp only [wireEntries, Matrix.of_apply, Matrix.add_apply]
        split_ifs <;> simp
      map_smul' := fun c M => by
        ext x y
        simp [wireEntries] }
    wireEntries_one wireEntries_mul

theorem onWire_apply (M : BitOperator) (x y : Basis n) :
    onWire q M x y = if ∀ p, p ≠ q → x p = y p then M (x q) (y q) else 0 := rfl

theorem onWire_mul_apply (M : BitOperator) (A : Operator n) (x y : Basis n) :
    (onWire q M * A) x y = ∑ b, M (x q) b * A (Function.update x q b) y :=
  wireEntries_mul_apply M A x y

/-- Operators on different wires commute. -/
theorem commute_onWire (h : p ≠ q) (M N : BitOperator) : Commute (onWire p M) (onWire q N) := by
  have hentry {a b : Fin n} (hab : b ≠ a) (K L : BitOperator) (x y : Basis n) :
      (onWire a K * (onWire b L * 1)) x y = ∑ i, ∑ j, K (x a) i * L (x b) j *
        (1 : Operator n) (Function.update (Function.update x a i) b j) y := by
    simp only [onWire_mul_apply, Function.update_of_ne hab, Finset.mul_sum, mul_assoc]
  have hcomm : onWire p M * (onWire q N * 1) = onWire q N * (onWire p M * 1) := by
    ext x y
    rw [hentry h.symm, hentry h, Finset.sum_comm]
    refine Finset.sum_congr rfl fun i _ => Finset.sum_congr rfl fun j _ => ?_
    rw [Function.update_comm h, mul_comm (M _ _)]
  rwa [mul_one, mul_one] at hcomm

/-! ## Operators away from a wire -/

/-- The operators that leave a wire alone. -/
def away (q : Fin n) : Subalgebra ℂ (Operator n) :=
  Subalgebra.centralizer ℂ (Set.range (onWire q))

theorem mem_away {A : Operator n} : A ∈ away q ↔ ∀ M, Commute (onWire q M) A := by
  rw [away, Subalgebra.mem_centralizer_iff, Set.forall_mem_range]
  rfl

theorem onWire_mem_away (h : p ≠ q) (M : BitOperator) : onWire p M ∈ away q :=
  mem_away.mpr fun N => commute_onWire h.symm N M

/-! ## Blocks along a wire -/

/-- The operator with given blocks along a wire. -/
def blocks (q : Fin n) (A : Matrix (Fin 2) (Fin 2) (Operator n)) : Operator n :=
  ∑ i, ∑ j, onWire q (Matrix.single i j 1) * A i j

/-- Matrices of blocks are multiplied like matrices, where the blocks on the
left leave the wire alone. -/
theorem blocks_mul {A B : Matrix (Fin 2) (Fin 2) (Operator n)} (hA : ∀ i j, A i j ∈ away q) :
    blocks q A * blocks q B = blocks q (A * B) := by
  have hterm (i j k l : Fin 2) :
      onWire q (Matrix.single i j 1) * A i j * (onWire q (Matrix.single k l 1) * B k l) =
        if j = k then onWire q (Matrix.single i l 1) * (A i j * B k l) else 0 := by
    have hcomm := (mem_away.mp (hA i j) (Matrix.single k l 1)).eq
    rw [mul_assoc, ← mul_assoc (A i j), ← hcomm, mul_assoc, ← mul_assoc, ← map_mul]
    split_ifs with hjk
    · rw [hjk, Matrix.single_mul_single_same, one_mul]
    · rw [Matrix.single_mul_single_of_ne _ _ _ _ hjk, map_zero, zero_mul]
  simp only [blocks, Finset.sum_mul, Finset.mul_sum, hterm, Matrix.mul_apply, Finset.sum_ite_eq',
    Finset.mem_univ, if_true]
  rw [Finset.sum_comm]
  conv_rhs => rw [Finset.sum_comm]
  exact Finset.sum_congr rfl fun l _ => Finset.sum_comm

theorem blocks_mem_away (h : p ≠ q) {A : Matrix (Fin 2) (Fin 2) (Operator n)}
    (hA : ∀ i j, A i j ∈ away q) : blocks p A ∈ away q :=
  sum_mem fun i _ => sum_mem fun j _ => mul_mem (onWire_mem_away h _) (hA i j)

/-- The entries of an operator with given blocks. -/
theorem blocks_apply (A : Matrix (Fin 2) (Fin 2) (Operator n)) (x y : Basis n) :
    blocks q A x y = ∑ j, A (x q) j (Function.update x q j) y := by
  have hsingle (i j b : Fin 2) : (Matrix.single i j 1 : BitOperator) (x q) b =
      if i = x q then if j = b then 1 else 0 else 0 := by
    rw [Matrix.single_apply, ite_and]
  simp only [blocks, Matrix.sum_apply, onWire_mul_apply, hsingle]
  rw [Finset.sum_eq_single (x q)]
  · simp
  · intro i _ hi
    simp [hi]
  · simp

/-- An operator on a wire has multiples of the identity as blocks. -/
theorem onWire_eq_blocks (M : BitOperator) : onWire q M = blocks q (M.map (algebraMap ℂ _)) := by
  conv_lhs => rw [Matrix.matrix_eq_sum_single M]
  simp only [map_sum, blocks, Matrix.map_apply]
  refine Finset.sum_congr rfl fun i _ => Finset.sum_congr rfl fun j _ => ?_
  rw [← Algebra.commutes, ← Algebra.smul_def, ← map_smul, Matrix.smul_single, smul_eq_mul,
    mul_one]

/-! ### Selection by a wire -/

/-- The operator that acts as `U` where the bit of a wire is zero, and as `V`
where it is one. -/
def select (q : Fin n) (U V : Operator n) : Operator n := blocks q !![U, 0; 0, V]

theorem select_eq (U V : Operator n) : select q U V =
    onWire q (Matrix.single 0 0 1) * U + onWire q (Matrix.single 1 1 1) * V := by
  simp [select, blocks]

/-- A diagonal operator on a wire selects a factor. -/
theorem onWire_diagonal (c d : ℂ) :
    onWire q !![c, 0; 0, d] = select q (algebraMap ℂ _ c) (algebraMap ℂ _ d) := by
  rw [onWire_eq_blocks, select]
  congr 1
  ext i j : 2
  fin_cases i <;> fin_cases j <;> simp

theorem single_add_single : (Matrix.single 0 0 1 + Matrix.single 1 1 1 : BitOperator) = 1 := by
  ext i j
  fin_cases i <;> fin_cases j <;> simp

/-- Acting in the same way in both cases is no selection. -/
@[simp] theorem select_self (U : Operator n) : select q U U = U := by
  rw [select_eq, ← add_mul, ← map_add, single_add_single, map_one, one_mul]

theorem select_smul (c : ℂ) (U V : Operator n) : select q (c • U) (c • V) = c • select q U V := by
  rw [select_eq, select_eq, mul_smul_comm, mul_smul_comm, smul_add]

theorem select_mul_right (U V W : Operator n) : select q U V * W = select q (U * W) (V * W) := by
  rw [select_eq, select_eq, add_mul, mul_assoc, mul_assoc]

theorem select_mul {U V : Operator n} (hU : U ∈ away q) (hV : V ∈ away q) (U' V' : Operator n) :
    select q U V * select q U' V' = select q (U * U') (V * V') := by
  rw [select, select, blocks_mul]
  · simp [select]
  · intro i j
    fin_cases i <;> fin_cases j <;> simp [hU, hV]

theorem mul_select {W : Operator n} (hW : W ∈ away q) (U V : Operator n) :
    W * select q U V = select q (W * U) (W * V) := by
  have h := select_mul hW hW U V
  rwa [select_self] at h

theorem select_mem_away (h : p ≠ q) {U V : Operator n} (hU : U ∈ away q) (hV : V ∈ away q) :
    select p U V ∈ away q := by
  refine blocks_mem_away h fun i j => ?_
  fin_cases i <;> fin_cases j <;> simp [hU, hV]

end Operator

end QuantumCompiler
