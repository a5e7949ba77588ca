import QuantumCompiler.Proofs.Operator.Standard
import QuantumCompiler.Proofs.Decomposition.Rule

/-!
# Decomposition rules for gates on one qubit

A rule for a gate on one qubit is an equation between words in rotations.
`turn_eq_target` checks all of them: the equations that do not hold letter by
letter are the lemmas before it.  Hence the steps of such a rule have the effect
of the decomposed gate on every register, up to a phase (`exact_of_wire`).
-/

namespace QuantumCompiler.Decomposition

open Operation Turn

/-! ## Parameters of steps -/

theorem Ratio.value_real (r : Ratio) : (r.value : ℝ) = r.numerator / r.denominator := by
  rw [Ratio.value]
  split_ifs with h
  · have habs : ((r.numerator.natAbs : ℕ) : ℝ) = -r.numerator := by
      rw [Nat.cast_natAbs, abs_of_neg h, Int.cast_neg]
    rw [habs, neg_div, neg_neg]
  · rw [Nat.cast_natAbs, abs_of_nonneg (not_lt.mp h)]

namespace Param

variable (ps : List ℝ) (i : Nat)

@[simp] theorem value_flat : flat.value ps = 0 := by
  simp [flat, value, Ratio.value_real]

@[simp] theorem value_half : half.value ps = Real.pi := by
  simp [half, value, Ratio.value_real]

@[simp] theorem value_quarter : quarter.value ps = Real.pi / 2 := by
  simp [quarter, value, Ratio.value_real]
  ring

@[simp] theorem value_negQuarter : negQuarter.value ps = -(Real.pi / 2) := by
  simp [negQuarter, value, Ratio.value_real]
  ring

@[simp] theorem value_eighth : eighth.value ps = Real.pi / 4 := by
  simp [eighth, value, Ratio.value_real]
  ring

@[simp] theorem value_negEighth : negEighth.value ps = -(Real.pi / 4) := by
  simp [negEighth, value, Ratio.value_real]
  ring

@[simp] theorem value_same : (same i).value ps = ps.getD i 0 := by
  simp [same, value, Ratio.value_real]

@[simp] theorem value_negated : (negated i).value ps = -ps.getD i 0 := by
  simp [negated, value, Ratio.value_real]

@[simp] theorem value_halved : (halved i).value ps = ps.getD i 0 / 2 := by
  simp [halved, value, Ratio.value_real]
  ring

@[simp] theorem value_negHalved : (negHalved i).value ps = -(ps.getD i 0 / 2) := by
  simp [negHalved, value, Ratio.value_real]
  ring

/-- The angles of a phased rotation as a general one. -/
@[simp] theorem value_shifted :
    (affine i ⟨1, 1⟩ ⟨-1, 2⟩).value ps = ps.getD i 0 - Real.pi / 2 := by
  simp [value, Ratio.value_real]
  ring

@[simp] theorem value_shifted_neg :
    (affine i ⟨-1, 1⟩ ⟨1, 2⟩).value ps = Real.pi / 2 - ps.getD i 0 := by
  simp [value, Ratio.value_real]
  ring

end Param

/-! ## Rules for gates on one qubit -/

/-- The turn of a step. -/
noncomputable def Step.turn (ps : List ℝ) (step : Step) : Turn :=
  Turn.ofKind ((step.params.map (Param.value ps)).getD 0 0)
    ((step.params.map (Param.value ps)).getD 1 0) ((step.params.map (Param.value ps)).getD 2 0)
    step.gate

/-- The turn of the steps of a rule. -/
noncomputable def Rule.turn (ps : List ℝ) (rule : Rule) : Turn :=
  (rule.steps.map (Step.turn ps)).reverse.prod

/-- The turn of the decomposed gate. -/
noncomputable def Rule.target (ps : List ℝ) (rule : Rule) : Turn :=
  Turn.ofKind (ps.getD 0 0) (ps.getD 1 0) (ps.getD 2 0) rule.gate

theorem z_quarter_x_quarter :
    about .z (Real.pi / 2) * (about .x (Real.pi / 2) * about .z (Real.pi / 2)) =
    hadamard := by
  calc about .z (Real.pi / 2) * (about .x (Real.pi / 2) * about .z (Real.pi / 2))
      = about .z (Real.pi / 2) * (about .x (Real.pi / 2) * (about .z (-(Real.pi / 2)) *
          about .z Real.pi)) := by
        rw [← about_half_mul_half .z Real.pi, ← mul_assoc (about .z (-(Real.pi / 2))),
          about_neg_mul, one_mul]
    _ = hadamard := by
        rw [← mul_assoc (about .x _), ← mul_assoc, z_quarter_x, y_quarter_z_half]

theorem x_half_y_quarter : about .x Real.pi * about .y (Real.pi / 2) = hadamard := by
  have hflip : about .z Real.pi * about .y (Real.pi / 2) =
      about .y (-(Real.pi / 2)) * about .z Real.pi := half_turn (by decide) _
  rw [← y_half_z_half, mul_assoc, hflip, ← mul_assoc, ← about_add, ← y_quarter_z_half]
  congr 2
  ring

theorem z_quarter_y_half : about .z (Real.pi / 2) * (about .y Real.pi * about .z (Real.pi / 2)) =
    about .y Real.pi := by
  have hflip : about .y Real.pi * about .z (Real.pi / 2) =
      about .z (-(Real.pi / 2)) * about .y Real.pi := half_turn (by decide) _
  rw [hflip, ← mul_assoc, about_mul_neg, one_mul]

theorem x_half_z_half : about .x Real.pi * about .z Real.pi = about .y Real.pi := by
  rw [← y_half_z_half, mul_assoc, about_pi_mul_pi, mul_one]

theorem y_half_x_half : about .y Real.pi * about .x Real.pi = about .z Real.pi := by
  rw [← y_half_z_half, ← mul_assoc, about_pi_mul_pi, one_mul]

theorem x_half_x_quarter :
    about .x Real.pi * about .x (Real.pi / 2) = about .x (-(Real.pi / 2)) := by
  have hangle : Real.pi + Real.pi / 2 = 2 * Real.pi + -(Real.pi / 2) := by ring
  rw [← about_add, hangle, about_add, about_two_pi, one_mul]

/-- Half turns about two axes in a plane make a rotation by twice the angle
between them. -/
theorem x_half_turned (θ : ℝ) :
    about .z (θ / 2) * (about .x Real.pi * (about .z (-(θ / 2)) * about .x Real.pi)) =
      about .z θ := by
  have hflip : about .x Real.pi * about .z (-(θ / 2)) = about .z (θ / 2) * about .x Real.pi := by
    rw [half_turn (by decide), neg_neg]
  rw [← mul_assoc (about .x _), hflip, mul_assoc, about_pi_mul_pi, mul_one, about_half_mul_half]

theorem z_shifted_y (θ φ : ℝ) :
    about .z (φ - Real.pi / 2) * (about .y θ * about .z (Real.pi / 2 - φ)) =
      about .z φ * (about .x θ * about .z (-φ)) := by
  rw [← z_neg_quarter_y θ, sub_eq_add_neg, sub_eq_add_neg, about_add, about_add]
  simp only [mul_assoc]

/-- The steps of every rule for a gate on one qubit make its turn. -/
theorem turn_eq_target (ps : List ℝ) :
    ∀ rule ∈ rules, rule.gate.numQubits = 1 → rule.turn ps = rule.target ps := by
  simp [rules, Gate.numQubits, Rule.turn, Rule.target, Step.turn, Turn.ofKind, Step.on, mul_assoc,
    about_half_mul_half, y_quarter_z_half, z_quarter_x, z_neg_quarter_y, x_neg_quarter_z,
    y_half_z_half, hadamard_z, hadamard_x, z_quarter_x_quarter, x_half_y_quarter,
    z_quarter_y_half, x_half_z_half, y_half_x_half, x_half_x_quarter, x_half_turned,
    z_shifted_y]

/-! ## Effect on a register -/

variable {n m : Nat} {op : Operation ℝ} {rule : Rule}

/-- In a rule for a gate on one qubit all steps act on this qubit. -/
theorem operands_of_wire (hrule : rule ∈ rules) (hone : rule.gate.numQubits = 1) :
    ∀ step ∈ rule.steps,
      step.operands = [0] ∧ step.gate.numQubits = 1 ∧ step.gate.isUnitary = true := by
  intro step hstep
  obtain ⟨hunitary, -, hlength, hnodup, hlt⟩ := (rules_fit rule hrule).2 step hstep
  rw [hone] at hlt
  have hzeros : step.operands = List.replicate step.operands.length 0 :=
    List.eq_replicate_iff.mpr ⟨rfl, fun i hi => Nat.lt_one_iff.mp (hlt i hi)⟩
  have hle : step.operands.length ≤ 1 := by
    rw [hzeros] at hnodup
    exact List.nodup_replicate.mp hnodup
  have hpos := Gate.numQubits_pos_of_isUnitary hunitary
  have heq : step.operands.length = 1 := by omega
  rw [heq] at hzeros
  exact ⟨hzeros, by omega, hunitary⟩

theorem turn_instantiate (hrule : rule ∈ rules) (hone : rule.gate.numQubits = 1)
    (hkind : op.kind = .gate rule.gate) :
    ((rule.instantiate op).map Operation.turn).reverse.prod = op.turn := by
  have hsteps :
      (rule.instantiate op).map Operation.turn = rule.steps.map (Step.turn op.params) := by
    rw [Rule.instantiate, List.map_map]
    refine List.map_congr_left fun step hstep => ?_
    obtain ⟨-, hone', hunitary⟩ := operands_of_wire hrule hone step hstep
    exact Turn.turn_eq hone' hunitary _ _
  have hop : op.turn = rule.target op.params := by
    obtain ⟨kind, params, qubits, clbits⟩ := op
    cases hkind
    exact Turn.turn_eq hone (rules_fit rule hrule).1 params qubits
  rw [hsteps, hop]
  exact turn_eq_target op.params rule hrule hone

/-- The rules for gates on one qubit are exact up to a phase. -/
theorem exact_of_wire (hrule : rule ∈ rules) (hone : rule.gate.numQubits = 1)
    (hkind : op.kind = .gate rule.gate) {q : Fin n} (hq : op.qubits = [(q : Nat)]) :
    ∃ phase : ℂ, ‖phase‖ = 1 ∧ evolution n (rule.instantiate op) = phase • op.operator n := by
  have hqubits : ∀ o ∈ rule.instantiate op, o.qubits = [(q : Nat)] := by
    intro o ho
    obtain ⟨step, hstep, rfl⟩ := List.mem_map.mp ho
    show step.operands.map (fun i => op.qubits.getD i 0) = _
    rw [(operands_of_wire hrule hone step hstep).1, hq]
    rfl
  have hturn :
      (((rule.instantiate op).map bitOperator).reverse.prod : Turn) = op.bitOperator := by
    have hprod := map_list_prod (Con.mk' (phases BitOperator))
      ((rule.instantiate op).map bitOperator).reverse
    rw [List.map_reverse, List.map_map] at hprod
    exact hprod.trans (turn_instantiate hrule hone hkind)
  obtain ⟨phase, hphase, heq⟩ := (Con.eq _).mp hturn
  refine ⟨phase, hphase, ?_⟩
  rw [evolution_of_wire hqubits, heq, map_smul, operator_of_wire hq]

end QuantumCompiler.Decomposition
