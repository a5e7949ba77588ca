import QuantumCompiler.Proofs.Decomposition.Turn

/-!
# Decomposition rules are exact

Read on the real line, the steps of every rule have the effect of the
decomposed gate up to a phase, whatever its parameters and qubits are
(`instantiate_exact`).

The rules for gates on two qubits conjugate the target of a controlled gate
(`conj_controlled`), put a gate between controlled bit flips (`flip_conj`), or
multiply controlled bit flips block by block (`flip_flip_flip`).  In the rule
for two controls every step, or pair of steps, is an operator on the target
that is selected by the bits of the controls (`branch`), so the rule is checked
for the four values of the controls.
-/

namespace QuantumCompiler.Decomposition

open Operation Operator Complex

/-! ## Rules for gates on two qubits -/

section Pair

variable {n : Nat} {a b : Fin n}

/-- A phase gate selects a factor. -/
theorem onWire_phaseShift (θ : ℝ) :
    onWire a (phaseShift θ) = select a 1 (algebraMap ℂ _ (exp (θ * I))) := by
  rw [phaseShift, onWire_diagonal, map_one]

/-- Conjugating the target of a controlled gate. -/
theorem conj_controlled (h : b ≠ a) {U V M N : BitOperator} (hUV : U * V = 1)
    (hM : U * M = N * U) :
    onWire b U * select a 1 (onWire b M) * onWire b V = select a 1 (onWire b N) := by
  rw [mul_select (onWire_mem_away h U), select_mul_right, mul_one, ← map_mul, ← map_mul,
    ← map_mul, hM, mul_assoc, hUV, map_one, mul_one]

/-- Conjugating an operator on the target with a controlled bit flip. -/
theorem flip_conj (h : b ≠ a) (M : BitOperator) :
    select a 1 (onWire b Pauli.x.matrix) * onWire b M * select a 1 (onWire b Pauli.x.matrix) =
      select a (onWire b M) (onWire b (Pauli.x.matrix * M * Pauli.x.matrix)) := by
  have haway (N : BitOperator) : onWire b N ∈ away a := onWire_mem_away h N
  rw [select_mul_right, one_mul, select_mul (haway M) (mul_mem (haway _) (haway _)), mul_one,
    map_mul, map_mul]

theorem flip_mul_flip : Pauli.x.matrix * Pauli.x.matrix = 1 := Pauli.mul_self .x

theorem flip_conj_rotation (θ : ℝ) :
    Pauli.x.matrix * rotation .z θ * Pauli.x.matrix = rotation .z (-θ) := by
  rw [matrix_mul_rotation (by decide), mul_assoc, flip_mul_flip, mul_one]

theorem flip_conj_phaseShift (θ : ℝ) :
    Pauli.x.matrix * phaseShift θ * Pauli.x.matrix = exp (θ * I) • phaseShift (-θ) := by
  rw [flip_mul_phaseShift, smul_mul_assoc, mul_assoc, flip_mul_flip, mul_one]

/-- A controlled bit flip by its blocks along its target. -/
theorem flip_blocks (h : a ≠ b) : select b 1 (onWire a Pauli.x.matrix) = blocks a
    !![onWire b !![1, 0; 0, 0], onWire b !![0, 0; 0, 1];
      onWire b !![0, 0; 0, 1], onWire b !![1, 0; 0, 0]] := by
  have hflip : (Matrix.single 0 1 1 + Matrix.single 1 0 1 : BitOperator) = Pauli.x.matrix := by
    ext i j
    fin_cases i <;> fin_cases j <;> simp [Pauli.matrix]
  have hzero : (Matrix.single 0 0 1 : BitOperator) = !![1, 0; 0, 0] := by
    ext i j
    fin_cases i <;> fin_cases j <;> simp
  have hone : (Matrix.single 1 1 1 : BitOperator) = !![0, 0; 0, 1] := by
    ext i j
    fin_cases i <;> fin_cases j <;> simp
  have hblocks (P Q : Operator n) :
      blocks a !![P, Q; Q, P] = P + onWire a Pauli.x.matrix * Q := by
    calc blocks a !![P, Q; Q, P]
        = onWire a (Matrix.single 0 0 1 + Matrix.single 1 1 1) * P +
            onWire a (Matrix.single 0 1 1 + Matrix.single 1 0 1) * Q := by
          simp only [blocks, Fin.sum_univ_two, map_add, add_mul]
          simp
          abel
      _ = P + onWire a Pauli.x.matrix * Q := by rw [single_add_single, hflip, map_one, one_mul]
  rw [hblocks, (commute_onWire h _ _).eq, select_eq, hzero, hone, mul_one]

/-- Three controlled bit flips exchange two wires. -/
theorem flip_flip_flip (h : a ≠ b) :
    select a 1 (onWire b Pauli.x.matrix) * select b 1 (onWire a Pauli.x.matrix) *
      select a 1 (onWire b Pauli.x.matrix) = blocks a
      !![onWire b !![1, 0; 0, 0], onWire b !![0, 0; 1, 0];
        onWire b !![0, 1; 0, 0], onWire b !![0, 0; 0, 1]] := by
  have haway (N : BitOperator) : onWire b N ∈ away a := onWire_mem_away h.symm N
  have hright : !![0, 0; 0, 1] * Pauli.x.matrix = !![0, 0; 1, 0] := by
    ext i j
    fin_cases i <;> fin_cases j <;> simp [Pauli.matrix]
  have hleft : Pauli.x.matrix * !![0, 0; 0, 1] = !![0, 1; 0, 0] := by
    ext i j
    fin_cases i <;> fin_cases j <;> simp [Pauli.matrix]
  have hboth : Pauli.x.matrix * !![1, 0; 0, 0] * Pauli.x.matrix = !![0, 0; 0, 1] := by
    ext i j
    fin_cases i <;> fin_cases j <;> simp [Pauli.matrix]
  rw [flip_blocks h, select, blocks_mul, blocks_mul, Matrix.mul_fin_two, Matrix.mul_fin_two]
  · simp only [one_mul, mul_one, zero_mul, mul_zero, add_zero, zero_add, ← map_mul, hright,
      hleft, hboth]
  · intro i j
    fin_cases i <;> fin_cases j <;> simp [haway, ← map_mul]
  · intro i j
    fin_cases i <;> fin_cases j <;> simp [haway]

/-- A phase gate between controlled bit flips, with the opposite one on the
control. -/
theorem phaseShift_between_flips (h : a ≠ b) (θ : ℝ) :
    select a 1 (onWire b Pauli.x.matrix) * onWire b (phaseShift (-θ)) *
        select a 1 (onWire b Pauli.x.matrix) * onWire a (phaseShift θ) =
      select a (onWire b (phaseShift (-θ))) (onWire b (phaseShift θ)) := by
  have haway (N : BitOperator) : onWire b N ∈ away a := onWire_mem_away h.symm N
  have hphase : exp ((-θ : ℝ) * I) * exp (θ * I) = 1 := by
    rw [← exp_add, ofReal_neg, neg_mul, neg_add_cancel, exp_zero]
  rw [flip_conj h.symm, flip_conj_phaseShift, neg_neg, map_smul, onWire_phaseShift (a := a),
    select_mul (haway _) (Subalgebra.smul_mem _ (haway _) _), mul_one, ← Algebra.commutes,
    ← Algebra.smul_def, smul_smul, mul_comm, hphase, one_smul]

/-- The steps of a controlled phase gate. -/
theorem phaseShift_flips (h : a ≠ b) (θ : ℝ) :
    onWire b (phaseShift (θ / 2)) * select a 1 (onWire b Pauli.x.matrix) *
        onWire b (phaseShift (-(θ / 2))) * select a 1 (onWire b Pauli.x.matrix) *
      onWire a (phaseShift (θ / 2)) = select a 1 (onWire b (phaseShift θ)) := by
  simp only [mul_assoc (onWire b (phaseShift (θ / 2)))]
  rw [phaseShift_between_flips h, mul_select (onWire_mem_away h.symm _), ← map_mul, ← map_mul,
    ← phaseShift_add, ← phaseShift_add, add_neg_cancel, add_halves, phaseShift_zero, map_one]

/-- A rotation between controlled bit flips. -/
theorem rotation_between_flips (h : a ≠ b) (θ : ℝ) :
    select a 1 (onWire b Pauli.x.matrix) * onWire b (rotation .z θ) *
      select a 1 (onWire b Pauli.x.matrix) =
        select a (onWire b (rotation .z θ)) (onWire b (rotation .z (-θ))) := by
  rw [flip_conj h.symm, flip_conj_rotation]

theorem rotation_after_rotations (θ : ℝ) :
    select a (onWire b (rotation .z (-(θ / 2)))) (onWire b (rotation .z (θ / 2))) *
      onWire b (rotation .z (θ / 2)) = select a 1 (onWire b (rotation .z θ)) := by
  rw [select_mul_right, ← map_mul, ← map_mul, ← rotation_add, ← rotation_add, neg_add_cancel,
    add_halves, rotation_zero, map_one]

theorem instantiate_ofGate (step : Step) (g : Gate) (ps : List ℝ) (qs : List Nat) :
    step.instantiate (ofGate g ps qs) =
      ofGate step.gate (step.params.map (Param.value ps))
      (step.operands.map fun i => qs.getD i 0) := rfl

/-- The steps of every rule for a gate on two qubits have its effect. -/
theorem evolution_pair (ps : List ℝ) (h : a ≠ b) : ∀ rule ∈ rules, rule.gate.numQubits = 2 →
    evolution n (rule.instantiate (ofGate rule.gate ps [(a : Nat), (b : Nat)])) =
      (ofGate rule.gate ps [(a : Nat), (b : Nat)]).operator n := by
  have hx_h := conj_controlled h.symm hadamardMatrix_mul_self hadamardMatrix_mul_z
  have hz_h := conj_controlled h.symm hadamardMatrix_mul_self hadamardMatrix_mul_x
  have hx_y : onWire b (rotation .y (Real.pi / 2)) * select a 1 (onWire b Pauli.z.matrix) *
      onWire b (rotation .y (-(Real.pi / 2))) = select a 1 (onWire b Pauli.x.matrix) :=
    conj_controlled h.symm (by rw [← rotation_add, add_neg_cancel, rotation_zero])
      (quarter_mul_matrix .y)
  have hy_s : onWire b (phaseShift (Real.pi / 2)) * select a 1 (onWire b Pauli.x.matrix) *
      onWire b (phaseShift (-(Real.pi / 2))) = select a 1 (onWire b Pauli.y.matrix) := by
    refine conj_controlled h.symm ?_ ?_
    · rw [← phaseShift_add, add_neg_cancel, phaseShift_zero]
    · rw [phaseShift_eq, smul_mul_assoc, mul_smul_comm]
      exact congrArg _ (quarter_mul_matrix .z)
  simp [rules, Gate.numQubits, Rule.instantiate, instantiate_ofGate, Step.on,
    operator_ofGate_wire, operator_cx _ h, operator_cx _ h.symm, operator_cy _ h,
    operator_cz _ h, operator_cp _ h,
    operator_crz _ h, operator_rzz _ h, operator_swap _ h, bitOperator_h, bitOperator_s,
    bitOperator_sdg, bitOperator_ry, bitOperator_p, bitOperator_rz, hx_h, hz_h, hx_y, hy_s,
    flip_flip_flip h, phaseShift_flips h, rotation_between_flips h, rotation_after_rotations]

end Pair

/-! ## Rules for gates on three qubits -/

section Triple

variable {n : Nat} {a b c : Fin n}

/-- The operator on a wire that is selected by two other wires. -/
def branch (a b c : Fin n) (M : Fin 2 → Fin 2 → BitOperator) : Operator n :=
  select a (select b (onWire c (M 0 0)) (onWire c (M 0 1)))
    (select b (onWire c (M 1 0)) (onWire c (M 1 1)))

theorem branch_mul (hab : b ≠ a) (hca : c ≠ a) (hcb : c ≠ b) (M N : Fin 2 → Fin 2 → BitOperator) :
    branch a b c M * branch a b c N = branch a b c fun i j => M i j * N i j := by
  have haway (i j : Fin 2) : select b (onWire c (M i 0)) (onWire c (M i 1)) ∈ away a :=
    select_mem_away hab (onWire_mem_away hca _) (onWire_mem_away hca _)
  rw [branch, branch, select_mul (haway 0 0) (haway 1 0),
    select_mul (onWire_mem_away hcb _) (onWire_mem_away hcb _),
    select_mul (onWire_mem_away hcb _) (onWire_mem_away hcb _), branch]
  simp only [map_mul]

theorem onWire_eq_branch (a b : Fin n) (M : BitOperator) :
    onWire c M = branch a b c fun _ _ => M := by
  rw [branch, select_self, select_self]

theorem flip_first (a b : Fin n) (M : BitOperator) :
    select a 1 (onWire c M) = branch a b c fun i _ => ![1, M] i := by
  simp [branch]

theorem flip_second (a b : Fin n) (M : BitOperator) :
    select b 1 (onWire c M) = branch a b c fun _ j => ![1, M] j := by
  simp [branch]

theorem phaseShift_second (a b c : Fin n) (θ : ℝ) :
    onWire b (phaseShift θ) = branch a b c fun _ j => ![1, exp (θ * I) • 1] j := by
  rw [onWire_phaseShift]
  simp [branch, Algebra.algebraMap_eq_smul_one]

/-- The last steps of the rule for two controls. -/
theorem controls_phase (hab : a ≠ b) (c : Fin n) (θ : ℝ) :
    select a 1 (onWire b Pauli.x.matrix) * onWire b (phaseShift (-θ)) * onWire a (phaseShift θ) *
        select a 1 (onWire b Pauli.x.matrix) =
      branch a b c fun i j => ![![1, exp (-θ * I) • 1] j, ![1, exp (θ * I) • 1] j] i := by
  have hcomm : onWire a (phaseShift θ) * select a 1 (onWire b Pauli.x.matrix) =
      select a 1 (onWire b Pauli.x.matrix) * onWire a (phaseShift θ) := by
    rw [onWire_phaseShift, select_mul (one_mem _) (algebraMap_mem _ _),
      select_mul (one_mem _) (onWire_mem_away hab.symm _), Algebra.commutes]
  rw [mul_assoc, hcomm, ← mul_assoc, phaseShift_between_flips hab, onWire_phaseShift,
    onWire_phaseShift]
  simp [branch, Algebra.algebraMap_eq_smul_one]

/-- The steps on the target of the rule for two controls, by the bits of the
controls.  The matrix `T` stands for an eighth of a turn, and `ω` for its
phase. -/
theorem toffoli_bits {T T' : BitOperator} {ω ω' : ℂ} (hT : T * T' = 1) (hT' : T' * T = 1)
    (hflip : Pauli.x.matrix * T' * Pauli.x.matrix = ω' • T)
    (hfour : T * T * (T * T) = Pauli.z.matrix) (hω : ω * ω' = 1) (i j : Fin 2) :
    ![![1, ω' • 1] j, ![1, ω • 1] j] i * hadamardMatrix * T * ![1, ω • 1] j *
          ![1, Pauli.x.matrix] i * T' * ![1, Pauli.x.matrix] j * T * ![1, Pauli.x.matrix] i *
          T' * ![1, Pauli.x.matrix] j * hadamardMatrix =
      ![![1, 1] j, ![1, Pauli.x.matrix] j] i := by
  have hcancel (N : BitOperator) : T * (T' * N) = N := by rw [← mul_assoc, hT, one_mul]
  have hcancel' (N : BitOperator) : T' * (T * N) = N := by rw [← mul_assoc, hT', one_mul]
  have hflips (N : BitOperator) : Pauli.x.matrix * (Pauli.x.matrix * N) = N := by
    rw [← mul_assoc, flip_mul_flip, one_mul]
  have hturned (N : BitOperator) :
      Pauli.x.matrix * (T' * (Pauli.x.matrix * N)) = ω' • (T * N) := by
    rw [← mul_assoc, ← mul_assoc, hflip, smul_mul_assoc]
  have hfour' (N : BitOperator) : T * (T * (T * (T * N))) = Pauli.z.matrix * N := by
    rw [← hfour]
    simp only [mul_assoc]
  have hz : hadamardMatrix * (Pauli.z.matrix * hadamardMatrix) = Pauli.x.matrix := by
    rw [← mul_assoc, hadamardMatrix_mul_z, mul_assoc, hadamardMatrix_mul_self, mul_one]
  fin_cases i <;> fin_cases j
  · simp [mul_assoc, hcancel, hadamardMatrix_mul_self]
  · simp [mul_assoc, hcancel, hflips, hadamardMatrix_mul_self, smul_smul, hω]
  · simp [mul_assoc, hcancel, hcancel', hflips, hadamardMatrix_mul_self]
  · have hphase : ω * (ω * (ω' * ω')) = 1 := by linear_combination (1 + ω * ω') * hω
    simp [mul_assoc, hturned, hfour', hz, smul_smul, hphase]

theorem eighth_four : phaseShift (Real.pi / 4) * phaseShift (Real.pi / 4) *
    (phaseShift (Real.pi / 4) * phaseShift (Real.pi / 4)) = Pauli.z.matrix := by
  rw [← phaseShift_add, ← phaseShift_add,
    show Real.pi / 4 + Real.pi / 4 + (Real.pi / 4 + Real.pi / 4) = Real.pi by ring]
  simp [phaseShift, Pauli.matrix]

/-- The steps of the rule for two controls. -/
theorem toffoli_steps (hab : a ≠ b) (hac : a ≠ c) (hbc : b ≠ c) :
    select a 1 (onWire b Pauli.x.matrix) * onWire b (phaseShift (-(Real.pi / 4))) *
          onWire a (phaseShift (Real.pi / 4)) * select a 1 (onWire b Pauli.x.matrix) *
          onWire c hadamardMatrix * onWire c (phaseShift (Real.pi / 4)) *
          onWire b (phaseShift (Real.pi / 4)) * select a 1 (onWire c Pauli.x.matrix) *
          onWire c (phaseShift (-(Real.pi / 4))) * select b 1 (onWire c Pauli.x.matrix) *
          onWire c (phaseShift (Real.pi / 4)) * select a 1 (onWire c Pauli.x.matrix) *
          onWire c (phaseShift (-(Real.pi / 4))) * select b 1 (onWire c Pauli.x.matrix) *
          onWire c hadamardMatrix =
      select a 1 (select b 1 (onWire c Pauli.x.matrix)) := by
  have hmul := branch_mul hab.symm hac.symm hbc.symm
  have hT : phaseShift (Real.pi / 4) * phaseShift (-(Real.pi / 4)) = 1 := by
    rw [← phaseShift_add, add_neg_cancel, phaseShift_zero]
  have hT' : phaseShift (-(Real.pi / 4)) * phaseShift (Real.pi / 4) = 1 := by
    rw [← phaseShift_add, neg_add_cancel, phaseShift_zero]
  have hflip : Pauli.x.matrix * phaseShift (-(Real.pi / 4)) * Pauli.x.matrix =
      exp (-(Real.pi / 4 : ℝ) * I) • phaseShift (Real.pi / 4) := by
    rw [flip_conj_phaseShift, neg_neg, ofReal_neg]
  have hω : exp ((Real.pi / 4 : ℝ) * I) * exp (-(Real.pi / 4 : ℝ) * I) = 1 := by
    rw [← exp_add, neg_mul, add_neg_cancel, exp_zero]
  rw [controls_phase hab c, flip_first a b, flip_second a b, phaseShift_second a b c,
    onWire_eq_branch a b hadamardMatrix, onWire_eq_branch a b (phaseShift (Real.pi / 4)),
    onWire_eq_branch a b (phaseShift (-(Real.pi / 4)))]
  simp only [hmul, toffoli_bits hT hT' hflip eighth_four hω]
  simp [branch]

/-- The steps of the rule for a controlled swap. -/
theorem swap_steps (ps : List ℝ) (hab : a ≠ b) (hac : a ≠ c) (hbc : b ≠ c) :
    select c 1 (onWire b Pauli.x.matrix) * select a 1 (select b 1 (onWire c Pauli.x.matrix)) *
        select c 1 (onWire b Pauli.x.matrix) =
      select a 1 ((ofGate .swap ps [(b : Nat), (c : Nat)]).operator n) := by
  have haway : select c 1 (onWire b Pauli.x.matrix) ∈ away a :=
    select_mem_away hac.symm (one_mem _) (onWire_mem_away hab.symm _)
  have hself :
      select c 1 (onWire b Pauli.x.matrix) * select c 1 (onWire b Pauli.x.matrix) = 1 := by
    rw [select_mul (one_mem _) (onWire_mem_away hbc _), ← map_mul, flip_mul_flip, map_one,
      one_mul, select_self]
  rw [mul_select haway, select_mul_right, mul_one, hself, flip_flip_flip hbc.symm,
    operator_exchange (.inr (.inl rfl)), operator_swap ps hbc.symm]

/-- The steps of every rule for a gate on three qubits have its effect. -/
theorem evolution_triple (ps : List ℝ) (hab : a ≠ b) (hac : a ≠ c) (hbc : b ≠ c) :
    ∀ rule ∈ rules, rule.gate.numQubits = 3 →
      evolution n (rule.instantiate (ofGate rule.gate ps [(a : Nat), (b : Nat), (c : Nat)])) =
        (ofGate rule.gate ps [(a : Nat), (b : Nat), (c : Nat)]).operator n := by
  simp [rules, Gate.numQubits, Rule.instantiate, instantiate_ofGate, Step.on,
    operator_ofGate_wire, operator_cx _ hab, operator_cx _ hac, operator_cx _ hbc,
    operator_cx _ hbc.symm, bitOperator_h,
    bitOperator_t, bitOperator_tdg, operator_ccx _ hab hac hbc, operator_cswap _ hab hac,
    toffoli_steps hab hac hbc, swap_steps ps hab hac hbc]

end Triple

/-! ## All rules -/

variable {n m : Nat} {op : Operation ℝ} {rule : Rule}

/-- Every rule is exact up to a phase: the steps that take the place of a gate
have its effect on the register, whatever its parameters and qubits are. -/
theorem instantiate_exact (hrule : rule ∈ rules) (hop : op.WellFormed n m)
    (hkind : op.kind = .gate rule.gate) :
    ∃ phase : ℂ, ‖phase‖ = 1 ∧ evolution n (rule.instantiate op) = phase • op.operator n := by
  have hunitary := (rules_fit rule hrule).1
  have hlength := (lengths_of_wellFormed hop hkind hunitary).1
  have hexact (h : evolution n (rule.instantiate (ofGate rule.gate op.params op.qubits)) =
      (ofGate rule.gate op.params op.qubits).operator n) :
      ∃ phase : ℂ, ‖phase‖ = 1 ∧ evolution n (rule.instantiate op) = phase • op.operator n := by
    refine ⟨1, norm_one, ?_⟩
    rw [one_smul, operator_eq_ofGate hkind, ← h]
    rfl
  rcases Gate.numQubits_of_isUnitary hunitary with hone | htwo | hthree
  · obtain ⟨q, hq⟩ := hop.exists_wire (hlength.trans hone)
    exact exact_of_wire hrule hone hkind hq
  · obtain ⟨a, b, hne, hqubits⟩ := hop.exists_pair (hlength.trans htwo)
    rw [hqubits] at hexact
    exact hexact (evolution_pair op.params hne rule hrule htwo)
  · obtain ⟨a, b, c, ⟨hab, hac, hbc⟩, hqubits⟩ := hop.exists_triple (hlength.trans hthree)
    rw [hqubits] at hexact
    exact hexact (evolution_triple op.params hab hac hbc rule hrule hthree)

/-- The rotation about both phase flips, between controlled bit flips on exchanged
qubits. -/
theorem instantiate_exact_rzz :
    (⟨.rzz, [.on .cx [0, 1], .on .rz [1] [.same 0], .on .cx [0, 1]]⟩ : Rule) ∈ rules ∧
      (ofGate .rzz [1] [1, 0] : Operation ℝ).WellFormed 2 0 ∧
      ∃ phase : ℂ, ‖phase‖ = 1 ∧
        evolution 2 [ofGate .cx [] [1, 0], ofGate .rz [1] [0], ofGate .cx [] [1, 0]] =
          phase • (ofGate .rzz [1] [1, 0]).operator 2 := by
  have hrule :
      (⟨.rzz, [.on .cx [0, 1], .on .rz [1] [.same 0], .on .cx [0, 1]]⟩ : Rule) ∈ rules := by
    decide
  have hop : (ofGate .rzz [1] [1, 0] : Operation ℝ).WellFormed 2 0 := by
    decide
  refine ⟨hrule, hop, ?_⟩
  have h := instantiate_exact hrule hop rfl
  simpa [Rule.instantiate, instantiate_ofGate, Step.on] using h

end QuantumCompiler.Decomposition
