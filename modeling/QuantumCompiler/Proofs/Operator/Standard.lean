import QuantumCompiler.Proofs.Operator.Rotation

/-!
# The standard gates

The matrices of the gates on one qubit are rotations with a phase, so up to a
phase every such gate is a word in rotations (`Turn.turn_eq`).  Gates on several
qubits select by the bits of their first qubit.
-/

namespace QuantumCompiler

open Complex

/-! ## Matrices of the gates on one qubit -/

namespace Operation

theorem bitOperator_of_matrix {op : Operation ℝ} {a b c d : Amplitude ℝ}
    (h : op.matrix = [[a, b], [c, d]]) :
    op.bitOperator = !![a.toComplex, b.toComplex; c.toComplex, d.toComplex] := by
  rw [bitOperator, Matrix.eta_fin_two (.of _)]
  simp [entry, h, GateMatrix.entry]

variable (params : List ℝ) (qs : List Nat)

theorem bitOperator_id : (ofGate .id params qs).bitOperator = 1 := by
  rw [bitOperator_of_matrix rfl]
  simp [Matrix.one_fin_two]

theorem bitOperator_x : (ofGate .x params qs).bitOperator = Pauli.x.matrix := by
  rw [bitOperator_of_matrix rfl]
  simp [Pauli.matrix]

theorem bitOperator_y : (ofGate .y params qs).bitOperator = Pauli.y.matrix := by
  rw [bitOperator_of_matrix rfl]
  simp [Pauli.matrix]

theorem bitOperator_z : (ofGate .z params qs).bitOperator = Pauli.z.matrix := by
  rw [bitOperator_of_matrix rfl]
  simp [Pauli.matrix]

theorem bitOperator_h : (ofGate .h params qs).bitOperator = hadamardMatrix := by
  have hroot : ((√2)⁻¹ : ℂ) = rootHalf := by
    rw [rootHalf_eq, Real.sqrt_div_self, ofReal_inv]
  rw [bitOperator_of_matrix rfl, hadamardMatrix]
  simp [Pauli.matrix, hroot]

theorem bitOperator_s : (ofGate .s params qs).bitOperator = phaseShift (Real.pi / 2) := by
  rw [bitOperator_of_matrix rfl]
  simp [phaseShift]

theorem bitOperator_sdg : (ofGate .sdg params qs).bitOperator = phaseShift (-(Real.pi / 2)) := by
  rw [bitOperator_of_matrix rfl]
  simp [phaseShift, exp_neg]

theorem bitOperator_t : (ofGate .t params qs).bitOperator = phaseShift (Real.pi / 4) := by
  rw [bitOperator_of_matrix rfl]
  simp [phaseShift]

theorem bitOperator_tdg : (ofGate .tdg params qs).bitOperator = phaseShift (-(Real.pi / 4)) := by
  rw [bitOperator_of_matrix rfl]
  simp [phaseShift]

theorem bitOperator_p : (ofGate .p params qs).bitOperator = phaseShift (params.getD 0 0) := by
  rw [bitOperator_of_matrix rfl]
  simp [phaseShift, param, ofGate]

theorem bitOperator_rx : (ofGate .rx params qs).bitOperator = rotation .x (params.getD 0 0) := by
  rw [bitOperator_of_matrix rfl, rotation_x]
  simp [param, ofGate]

theorem bitOperator_ry : (ofGate .ry params qs).bitOperator = rotation .y (params.getD 0 0) := by
  rw [bitOperator_of_matrix rfl, rotation_y]
  simp [param, ofGate]

theorem bitOperator_rz : (ofGate .rz params qs).bitOperator = rotation .z (params.getD 0 0) := by
  rw [bitOperator_of_matrix rfl, rotation_z]
  simp [param, ofGate, neg_div]

/-- A general rotation with its phase. -/
theorem bitOperator_u : (ofGate .u params qs).bitOperator =
    phaseShift (params.getD 1 0) * rotation .y (params.getD 0 0) *
      phaseShift (params.getD 2 0) := by
  rw [bitOperator_of_matrix rfl, rotation_y, phaseShift, phaseShift]
  ext i j
  fin_cases i <;> fin_cases j <;> simp [param, ofGate, add_mul, exp_add] <;> ring

theorem bitOperator_prx : (ofGate .prx params qs).bitOperator =
    phaseShift (params.getD 1 0) * rotation .x (params.getD 0 0) *
      phaseShift (-params.getD 1 0) := by
  rw [bitOperator_of_matrix rfl, rotation_x, phaseShift, phaseShift]
  ext i j
  fin_cases i <;> fin_cases j <;>
    simp [param, ofGate, mul_right_comm _ (cos _), ← exp_add] <;> ring

theorem bitOperator_sx : (ofGate .sx params qs).bitOperator =
    exp (Real.pi / 4 * I) • rotation .x (Real.pi / 2) := by
  have hentries : (ofGate .sx params qs).bitOperator =
      ((1 + I) / 2) • 1 + ((1 - I) / 2) • Pauli.x.matrix := by
    rw [bitOperator_of_matrix rfl]
    ext i j
    fin_cases i <;> fin_cases j <;>
      simp [Pauli.matrix, Amplitude.toComplex, Complex.mk_eq_add_mul_I] <;> ring
  rw [hentries, rotation_quarter, exp_mul_I, cos_eighth, sin_eighth]
  match_scalars
  · linear_combination -(1 + I) * rootHalf_mul_self
  · linear_combination -(1 - I) * rootHalf_mul_self + rootHalf * rootHalf * I_mul_I

theorem bitOperator_sxdg : (ofGate .sxdg params qs).bitOperator =
    exp (-(Real.pi / 4) * I) • rotation .x (-(Real.pi / 2)) := by
  have hentries : (ofGate .sxdg params qs).bitOperator =
      ((1 - I) / 2) • 1 + ((1 + I) / 2) • Pauli.x.matrix := by
    rw [bitOperator_of_matrix rfl]
    ext i j
    fin_cases i <;> fin_cases j <;>
      simp [Pauli.matrix, Amplitude.toComplex, Complex.mk_eq_add_mul_I] <;> ring
  rw [hentries, rotation_neg_quarter, exp_mul_I, cos_neg, sin_neg, cos_eighth, sin_eighth]
  match_scalars
  · linear_combination -(1 - I) * rootHalf_mul_self
  · linear_combination -(1 + I) * rootHalf_mul_self + rootHalf * rootHalf * I_mul_I

end Operation

/-! ## Gates as turns -/

/-- A gate on one qubit up to a phase. -/
noncomputable def Operation.turn (op : Operation ℝ) : Turn := op.bitOperator

namespace Turn

open Operation

/-- The turn of a gate by its first three parameters. -/
noncomputable def ofKind (θ φ lam : ℝ) : Gate → Turn
  | .x => about .x Real.pi
  | .y => about .y Real.pi
  | .z => about .z Real.pi
  | .h => hadamard
  | .s => about .z (Real.pi / (2 : Nat))
  | .sdg => about .z (-(Real.pi / (2 : Nat)))
  | .t => about .z (Real.pi / (4 : Nat))
  | .tdg => about .z (-(Real.pi / (4 : Nat)))
  | .sx => about .x (Real.pi / (2 : Nat))
  | .sxdg => about .x (-(Real.pi / (2 : Nat)))
  | .rx => about .x θ
  | .ry => about .y θ
  | .rz | .p => about .z θ
  | .u => about .z φ * about .y θ * about .z lam
  | .prx => about .z φ * about .x θ * about .z (-φ)
  | _ => 1

/-- Every gate on one qubit is a turn. -/
theorem turn_eq {g : Gate} (hg : g.numQubits = 1) (hunitary : g.isUnitary = true)
    (params : List ℝ) (qs : List Nat) :
    (Operation.ofGate g params qs).turn =
      ofKind (params.getD 0 0) (params.getD 1 0) (params.getD 2 0) g := by
  have hnorm (θ : ℝ) : ‖exp (θ * I)‖ = 1 := norm_exp_ofReal_mul_I θ
  cases g
  case id =>
    rw [turn, bitOperator_id, Con.coe_one]
    rfl
  case x => rw [turn, bitOperator_x, coe_matrix, ofKind]
  case y => rw [turn, bitOperator_y, coe_matrix, ofKind]
  case z => rw [turn, bitOperator_z, coe_matrix, ofKind]
  case h => rw [turn, bitOperator_h, ofKind, hadamard]
  case s => rw [turn, bitOperator_s, coe_phaseShift, ofKind, Nat.cast_ofNat]
  case sdg => rw [turn, bitOperator_sdg, coe_phaseShift, ofKind, Nat.cast_ofNat]
  case t => rw [turn, bitOperator_t, coe_phaseShift, ofKind, Nat.cast_ofNat]
  case tdg => rw [turn, bitOperator_tdg, coe_phaseShift, ofKind, Nat.cast_ofNat]
  case p => rw [turn, bitOperator_p, coe_phaseShift, ofKind]
  case sx =>
    rw [turn, bitOperator_sx, coe_smul (by simpa using hnorm (Real.pi / 4)), ofKind,
      Nat.cast_ofNat, about]
  case sxdg =>
    rw [turn, bitOperator_sxdg, coe_smul (by simpa using hnorm (-(Real.pi / 4))), ofKind,
      Nat.cast_ofNat, about]
  case rx => rw [turn, bitOperator_rx, ofKind, about]
  case ry => rw [turn, bitOperator_ry, ofKind, about]
  case rz => rw [turn, bitOperator_rz, ofKind, about]
  case u =>
    rw [turn, bitOperator_u, Con.coe_mul, Con.coe_mul, coe_phaseShift, coe_phaseShift, ofKind]
    rfl
  case prx =>
    rw [turn, bitOperator_prx, Con.coe_mul, Con.coe_mul, coe_phaseShift, coe_phaseShift, ofKind]
    rfl
  all_goals first | exact absurd hg (by decide) | exact absurd hunitary (by decide)

end Turn

/-! ## Gates on several qubits -/

namespace Operation

open Operator

variable {n : Nat} (params : List ℝ) {p q : Fin n}

/-- A controlled gate with one target acts on it if the bit of its control is
one. -/
theorem operator_controlled_one {g target : Gate} (hg : g.target? = some target)
    (hone : target.numQubits = 1) (h : p ≠ q) :
    (ofGate g params [(p : Nat), (q : Nat)]).operator n =
      select p 1 (onWire q (ofGate target params []).bitOperator) := by
  have hmem : (p : Nat) ∉ [(q : Nat)] := by simpa [Fin.val_inj] using h
  rw [operator_controlled hg params hmem (by simp [hone]), operator_of_wire rfl]
  rfl

theorem operator_cx (h : p ≠ q) : (ofGate .cx params [(p : Nat), (q : Nat)]).operator n =
    select p 1 (onWire q Pauli.x.matrix) := by
  rw [operator_controlled_one params rfl rfl h, bitOperator_x]

theorem operator_cy (h : p ≠ q) : (ofGate .cy params [(p : Nat), (q : Nat)]).operator n =
    select p 1 (onWire q Pauli.y.matrix) := by
  rw [operator_controlled_one params rfl rfl h, bitOperator_y]

theorem operator_cz (h : p ≠ q) : (ofGate .cz params [(p : Nat), (q : Nat)]).operator n =
    select p 1 (onWire q Pauli.z.matrix) := by
  rw [operator_controlled_one params rfl rfl h, bitOperator_z]

theorem operator_cp (h : p ≠ q) : (ofGate .cp params [(p : Nat), (q : Nat)]).operator n =
    select p 1 (onWire q (phaseShift (params.getD 0 0))) := by
  rw [operator_controlled_one params rfl rfl h, bitOperator_p]

theorem operator_crz (h : p ≠ q) : (ofGate .crz params [(p : Nat), (q : Nat)]).operator n =
    select p 1 (onWire q (rotation .z (params.getD 0 0))) := by
  rw [operator_controlled_one params rfl rfl h, bitOperator_rz]

theorem operator_ccx {r : Fin n} (hp : p ≠ q) (hr : p ≠ r) (h : q ≠ r) :
    (ofGate .ccx params [(p : Nat), (q : Nat), (r : Nat)]).operator n =
      select p 1 (select q 1 (onWire r Pauli.x.matrix)) := by
  have hmem : (p : Nat) ∉ [(q : Nat), (r : Nat)] := by simp [Fin.val_inj, hp, hr]
  rw [operator_controlled rfl params hmem rfl, operator_cx params h]

theorem operator_cswap {r : Fin n} (hp : p ≠ q) (hr : p ≠ r) :
    (ofGate .cswap params [(p : Nat), (q : Nat), (r : Nat)]).operator n =
      select p 1 ((ofGate .swap params [(q : Nat), (r : Nat)]).operator n) := by
  have hmem : (p : Nat) ∉ [(q : Nat), (r : Nat)] := by simp [Fin.val_inj, hp, hr]
  rw [operator_controlled rfl params hmem rfl]

/-- The rotation about both phase flips turns one wire by the bit of the
other. -/
theorem operator_rzz (h : p ≠ q) : (ofGate .rzz params [(p : Nat), (q : Nat)]).operator n =
    select p (onWire q (rotation .z (params.getD 0 0)))
      (onWire q (rotation .z (-params.getD 0 0))) := by
  have hzero : (!![0, 0; 0, 0] : BitOperator) = 0 := by
    ext i j
    fin_cases i <;> fin_cases j <;> rfl
  rw [operator_of_pair h rfl, select, rotation_z, rotation_z]
  simp [entry, matrix, unitary?, ofGate, GateMatrix.entry, GateMatrix.diagonal, GateMatrix.ofFn,
    param, neg_div, hzero]

end Operation

end QuantumCompiler
