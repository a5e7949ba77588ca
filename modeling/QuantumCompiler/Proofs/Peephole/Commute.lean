import QuantumCompiler.Proofs.Operator.Standard
import QuantumCompiler.Proofs.Peephole.Rule

/-!
# Gates that are known to commute do commute

The table of axes says along which axis a gate is diagonal on each of its
qubits.  `diagonalAlong` is the algebra of operators that are built from
operators on single wires along these axes, and every gate lies in the algebra
of its own axes (`operator_mem_diagonalAlong`).  Operators on one wire along one
axis commute, and so do operators on different wires.  Hence two gates commute
that have the same axis on every qubit they share (`commute_operator`).
-/

namespace QuantumCompiler.Peephole

open Operation Operator

variable {n m : Nat}

/-! ## Operators along an axis -/

/-- The matrix of an axis. -/
def Axis.matrix : Axis → BitOperator
  | .z => Pauli.z.matrix
  | .x => Pauli.x.matrix

/-- An operator on a bit that is diagonal along an axis.  Without an axis nothing
is required. -/
def Along : Option Axis → BitOperator → Prop
  | none, _ => True
  | some axis, M => ∃ α β : ℂ, M = α • 1 + β • axis.matrix

/-- Operators along one axis commute. -/
theorem Along.commute {axis : Axis} {M N : BitOperator} (hM : Along (some axis) M)
    (hN : Along (some axis) N) : Commute M N := by
  obtain ⟨α, β, rfl⟩ := hM
  obtain ⟨γ, δ, rfl⟩ := hN
  have hself : Commute (α • 1 + β • axis.matrix) axis.matrix :=
    ((Commute.one_left _).smul_left α).add_left ((Commute.refl _).smul_left β)
  exact ((Commute.one_right _).smul_right γ).add_right (hself.smul_right δ)

theorem along_smul {axis : Option Axis} {M : BitOperator} (h : Along axis M) (c : ℂ) :
    Along axis (c • M) := by
  cases axis with
  | none => trivial
  | some axis =>
    obtain ⟨α, β, rfl⟩ := h
    exact ⟨c * α, c * β, by rw [smul_add, smul_smul, smul_smul]⟩

theorem along_one (axis : Option Axis) : Along axis 1 := by
  cases axis with
  | none => trivial
  | some axis => exact ⟨1, 0, by simp⟩

theorem along_matrix (axis : Axis) : Along (some axis) axis.matrix := ⟨0, 1, by simp⟩

theorem along_rotation_z (θ : ℝ) : Along (some .z) (rotation .z θ) := by
  rw [rotation_eq, sub_eq_add_neg, ← neg_smul]
  exact ⟨_, _, rfl⟩

theorem along_rotation_x (θ : ℝ) : Along (some .x) (rotation .x θ) := by
  rw [rotation_eq, sub_eq_add_neg, ← neg_smul]
  exact ⟨_, _, rfl⟩

theorem along_phaseShift (θ : ℝ) : Along (some .z) (phaseShift θ) := by
  rw [phaseShift_eq]
  exact along_smul (along_rotation_z θ) _

/-- The matrices of the gates on one qubit are diagonal along their axes. -/
theorem along_bitOperator {g : Gate} (hone : g.numQubits = 1) (hunitary : g.isUnitary = true)
    (params : List ℝ) (qs : List Nat) : Along (axis? g 1 0) (ofGate g params qs).bitOperator := by
  cases g
  case id => rw [bitOperator_id]; exact along_one _
  case x => rw [bitOperator_x]; exact along_matrix .x
  case z => rw [bitOperator_z]; exact along_matrix .z
  case s => rw [bitOperator_s]; exact along_phaseShift _
  case sdg => rw [bitOperator_sdg]; exact along_phaseShift _
  case t => rw [bitOperator_t]; exact along_phaseShift _
  case tdg => rw [bitOperator_tdg]; exact along_phaseShift _
  case p => rw [bitOperator_p]; exact along_phaseShift _
  case rz => rw [bitOperator_rz]; exact along_rotation_z _
  case rx => rw [bitOperator_rx]; exact along_rotation_x _
  case sx => rw [bitOperator_sx]; exact along_smul (along_rotation_x _) _
  case sxdg => rw [bitOperator_sxdg]; exact along_smul (along_rotation_x _) _
  all_goals trivial

/-! ## The algebra of some axes -/

/-- The operators that are built from operators on single wires along given
axes. -/
def diagonalAlong (n : Nat) (axes : Nat → Option Axis) (qs : List Nat) :
    Subalgebra ℂ (Operator n) :=
  Algebra.adjoin ℂ {A | ∃ (i : Nat) (q : Fin n) (M : BitOperator),
    qs[i]? = some (q : Nat) ∧ Along (axes i) M ∧ A = onWire q M}

theorem onWire_mem_diagonalAlong {axes : Nat → Option Axis} {qs : List Nat} {i : Nat} {q : Fin n}
    (hq : qs[i]? = some (q : Nat)) {M : BitOperator} (hM : Along (axes i) M) :
    onWire q M ∈ diagonalAlong n axes qs :=
  Algebra.subset_adjoin ⟨i, q, M, hq, hM, rfl⟩

/-- The algebra of all qubits but the first one. -/
theorem diagonalAlong_le {axes axes' : Nat → Option Axis} {q : Nat} {qs : List Nat}
    (h : ∀ i < qs.length, axes' (i + 1) = axes i) :
    diagonalAlong n axes qs ≤ diagonalAlong n axes' (q :: qs) := by
  refine Algebra.adjoin_mono ?_
  rintro A ⟨i, p, M, hp, hM, rfl⟩
  obtain ⟨hi, -⟩ := List.getElem?_eq_some_iff.mp hp
  exact ⟨i + 1, p, M, by simpa using hp, by rw [h i hi]; exact hM, rfl⟩

/-- Selection by a wire with the axis of the phase flip. -/
theorem select_mem_diagonalAlong {axes : Nat → Option Axis} {q : Fin n} {qs : List Nat}
    (haxis : axes 0 = some .z) {U V : Operator n}
    (hU : U ∈ diagonalAlong n axes ((q : Nat) :: qs))
    (hV : V ∈ diagonalAlong n axes ((q : Nat) :: qs)) :
    select q U V ∈ diagonalAlong n axes ((q : Nat) :: qs) := by
  have hzero : Along (axes 0) (Matrix.single 0 0 1) := by
    rw [haxis]
    refine ⟨1 / 2, 1 / 2, ?_⟩
    ext i j
    fin_cases i <;> fin_cases j <;> norm_num [Axis.matrix, Pauli.matrix]
  have hone : Along (axes 0) (Matrix.single 1 1 1) := by
    rw [haxis]
    refine ⟨1 / 2, -(1 / 2), ?_⟩
    ext i j
    fin_cases i <;> fin_cases j <;> norm_num [Axis.matrix, Pauli.matrix]
  rw [select_eq]
  exact add_mem (mul_mem (onWire_mem_diagonalAlong rfl hzero) hU)
    (mul_mem (onWire_mem_diagonalAlong rfl hone) hV)

/-! ## Gates lie in the algebra of their axes -/

/-- A controlled gate has the axis of the phase flip on its control and the
axes of its target on the other operands. -/
theorem axis?_controlled {g target : Gate} (hg : g.target? = some target) :
    axis? g (target.numQubits + 1) 0 = some .z ∧
      ∀ i < target.numQubits, axis? g (target.numQubits + 1) (i + 1) =
      axis? target target.numQubits i := by
  cases g <;> cases hg <;> decide

theorem controlled_mem_diagonalAlong {g target : Gate} (hg : g.target? = some target)
    (params : List ℝ) {q : Fin n} {qs : List Nat} (hq : (q : Nat) ∉ qs)
    (hlength : qs.length = target.numQubits)
    (h : (ofGate target params qs).operator n ∈
      diagonalAlong n (axis? target target.numQubits) qs) :
    (ofGate g params ((q : Nat) :: qs)).operator n ∈
      diagonalAlong n (axis? g g.numQubits) ((q : Nat) :: qs) := by
  obtain ⟨hcontrol, htarget⟩ := axis?_controlled hg
  rw [Gate.numQubits_of_target? hg, operator_controlled hg params hq hlength]
  exact select_mem_diagonalAlong hcontrol (one_mem _) (diagonalAlong_le (hlength ▸ htarget) h)

/-- A swap has no axes, so every operator on its wires will do. -/
theorem swap_mem_diagonalAlong (params : List ℝ) {p q : Fin n} (h : p ≠ q) :
    (ofGate .swap params [(p : Nat), (q : Nat)]).operator n ∈
      diagonalAlong n (axis? .swap 2) [(p : Nat), (q : Nat)] := by
  rw [operator_swap params h, blocks]
  refine sum_mem fun i _ => sum_mem fun j _ =>
    mul_mem (onWire_mem_diagonalAlong (i := 0) rfl trivial) ?_
  fin_cases i <;> fin_cases j <;> exact onWire_mem_diagonalAlong (i := 1) rfl trivial

theorem rzz_mem_diagonalAlong (params : List ℝ) {p q : Fin n} (h : p ≠ q) :
    (ofGate .rzz params [(p : Nat), (q : Nat)]).operator n ∈
      diagonalAlong n (axis? .rzz 2) [(p : Nat), (q : Nat)] := by
  have hrotation (θ : ℝ) : onWire q (rotation .z θ) ∈
      diagonalAlong n (axis? .rzz 2) [(p : Nat), (q : Nat)] :=
    onWire_mem_diagonalAlong (i := 1) rfl (along_rotation_z θ)
  rw [operator_rzz params h]
  exact select_mem_diagonalAlong rfl (hrotation _) (hrotation _)

/-- Every gate is built from operators on its qubits along its axes. -/
theorem gate_mem_diagonalAlong {g : Gate} (hunitary : g.isUnitary = true) (params : List ℝ)
    {ws : List (Fin n)} (hnodup : ws.Nodup) (hlength : ws.length = g.numQubits) :
    (ofGate g params (ws.map Fin.val)).operator n ∈
      diagonalAlong n (axis? g g.numQubits) (ws.map Fin.val) := by
  refine Gate.controls_induction (P := fun g ws => (ofGate g params (ws.map Fin.val)).operator n ∈
    diagonalAlong n (axis? g g.numQubits) (ws.map Fin.val)) ?_ ?_ ?_ ?_ hunitary hnodup hlength
  · intro g q hone hunitary
    rw [List.map_singleton, operator_of_wire rfl, hone]
    exact onWire_mem_diagonalAlong (i := 0) rfl (along_bitOperator hone hunitary params _)
  · exact swap_mem_diagonalAlong params
  · exact rzz_mem_diagonalAlong params
  · intro g target q ws htarget hnodup hlength h
    have hq : (q : Nat) ∉ ws.map Fin.val := by
      simpa [Fin.val_inj] using (List.nodup_cons.mp hnodup).1
    exact controlled_mem_diagonalAlong htarget params hq (by rw [List.length_map, hlength]) h

theorem operator_mem_diagonalAlong {op : Operation ℝ} (h : op.WellFormed n m)
    (hunitary : op.isUnitary = true) :
    op.operator n ∈ diagonalAlong n (operandAxis? op) op.qubits := by
  obtain ⟨g, hkind, hg⟩ := exists_gate_of_isUnitary hunitary
  obtain ⟨ws, hws, hnodup, hlength⟩ := h.exists_wires_of_kind hkind hg
  have haxes : operandAxis? op = axis? g g.numQubits := by
    funext i
    simp [operandAxis?, hkind, Kind.gate?, hws, hlength]
  rw [haxes, operator_eq_ofGate hkind, hws]
  exact gate_mem_diagonalAlong hg op.params hnodup hlength

/-! ## Gates that commute -/

/-- Two gates commute that are diagonal along the same axis on every qubit they
share. -/
theorem commute_operator {a b : Operation ℝ} (ha : a.WellFormed n m) (hb : b.WellFormed n m)
    (h : commute a b = true) : Commute (a.operator n) (b.operator n) := by
  obtain ⟨hua, hub, hshared⟩ := (commute_iff ha.nodup).mp h
  refine Algebra.commute_of_mem_adjoin_of_forall_mem_commute
    (operator_mem_diagonalAlong hb hub) ?_
  rintro _ ⟨j, q, N, hj, hN, rfl⟩
  refine (Algebra.commute_of_mem_adjoin_of_forall_mem_commute
    (operator_mem_diagonalAlong ha hua) ?_).symm
  rintro _ ⟨i, p, M, hi, hM, rfl⟩
  by_cases hpq : p = q
  · subst hpq
    obtain ⟨axis, hai, hbj⟩ := hshared p (List.mem_of_getElem? hi) (List.mem_of_getElem? hj)
    rw [← axisOn?_eq ha.nodup hi, hai] at hM
    rw [← axisOn?_eq hb.nodup hj, hbj] at hN
    exact (hN.commute hM).map (onWire p)
  · exact commute_onWire (Ne.symm hpq) N M

end QuantumCompiler.Peephole
