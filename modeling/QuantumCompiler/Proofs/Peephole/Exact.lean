import QuantumCompiler.Proofs.Peephole.Angle
import QuantumCompiler.Proofs.Peephole.Commute
import QuantumCompiler.Proofs.Decomposition.Rule

/-!
# Pairs of gates are combined exactly

Read on the real line, without a tolerance, the local rules on pairs of gates
are laws of operators (`pair_rules_exact`): gates that are known to commute
commute, inverse pairs cancel, and rotations about one axis merge.

A gate with controls cancels or merges as its target does
(`operator_controlled_mul`).  The angle of a merged rotation is reduced by a
multiple of its period.  For a gate on one qubit and for the rotation about two
qubits a full turn is a sign, which is a phase.  A controlled rotation turns it
into a relative phase, so that its period is two full turns.
-/

namespace QuantumCompiler.Peephole

open Operation Operator Complex

variable {n m : Nat}

/-! ## Gates on the same qubits -/

/-- The qubits of the later one of two gates can be taken in the order of the
earlier one. -/
theorem operator_of_sameQubits {a b : Operation ℝ} {g : Gate} (h : sameQubits a b = true)
    (hb : b.kind = .gate g)
    (hsymmetric : isSymmetric a.kind = true → isSymmetric (.gate g) = true) :
    b.operator n = (ofGate g b.params a.qubits).operator n := by
  rw [operator_eq_ofGate hb]
  rw [sameQubits, Bool.or_eq_true, Bool.and_eq_true] at h
  rcases h with hsame | ⟨hkind, hexchanged⟩
  · rw [beq_iff_eq.mp hsame]
  · have hg : g = .cz ∨ g = .swap ∨ g = .cp ∨ g = .rzz := by
      simpa [isSymmetric, or_assoc] using hsymmetric hkind
    split at hexchanged
    · next p q r s ha hb =>
      simp only [Bool.and_eq_true, beq_iff_eq] at hexchanged
      obtain ⟨rfl, rfl⟩ := hexchanged
      rw [ha, hb, operator_exchange hg]
    · cases hexchanged

/-! ## Inverse pairs -/

theorem bitOperator_inverse_mul {g g' : Gate} (h : inverse? g = some g') (hone : g.numQubits = 1)
    (params params' : List ℝ) (qs : List Nat) :
    (ofGate g' params' qs).bitOperator * (ofGate g params qs).bitOperator = 1 := by
  cases g <;> cases h
  case x => rw [bitOperator_x, bitOperator_x, Pauli.mul_self]
  case y => rw [bitOperator_y, bitOperator_y, Pauli.mul_self]
  case z => rw [bitOperator_z, bitOperator_z, Pauli.mul_self]
  case h => rw [bitOperator_h, bitOperator_h, hadamardMatrix_mul_self]
  case s => rw [bitOperator_s, bitOperator_sdg, ← phaseShift_add, neg_add_cancel, phaseShift_zero]
  case sdg =>
    rw [bitOperator_s, bitOperator_sdg, ← phaseShift_add, add_neg_cancel, phaseShift_zero]
  case t => rw [bitOperator_t, bitOperator_tdg, ← phaseShift_add, neg_add_cancel, phaseShift_zero]
  case tdg =>
    rw [bitOperator_t, bitOperator_tdg, ← phaseShift_add, add_neg_cancel, phaseShift_zero]
  case sx =>
    rw [bitOperator_sx, bitOperator_sxdg, smul_mul_smul_comm, ← exp_add, ← rotation_add, neg_mul,
      neg_add_cancel, neg_add_cancel, rotation_zero, exp_zero, one_smul]
  case sxdg =>
    rw [bitOperator_sx, bitOperator_sxdg, smul_mul_smul_comm, ← exp_add, ← rotation_add, neg_mul,
      add_neg_cancel, add_neg_cancel, rotation_zero, exp_zero, one_smul]
  all_goals exact absurd hone (by decide)

theorem swap_mul_swap (params params' : List ℝ) {p q : Fin n} (h : p ≠ q) :
    (ofGate .swap params [(p : Nat), (q : Nat)]).operator n *
      (ofGate .swap params' [(p : Nat), (q : Nat)]).operator n = 1 := by
  have haway (M : BitOperator) : onWire q M ∈ away p := onWire_mem_away h.symm M
  have hone :
      (!![1, 0; 0, 0] * !![1, 0; 0, 0] + !![0, 0; 1, 0] * !![0, 1; 0, 0] : BitOperator) = 1 ∧
      (!![0, 1; 0, 0] * !![0, 0; 1, 0] + !![0, 0; 0, 1] * !![0, 0; 0, 1] : BitOperator) = 1 := by
    constructor <;> ext i j <;> fin_cases i <;> fin_cases j <;> simp
  have hzero :
      (!![1, 0; 0, 0] * !![0, 0; 1, 0] + !![0, 0; 1, 0] * !![0, 0; 0, 1] : BitOperator) = 0 ∧
      (!![0, 1; 0, 0] * !![1, 0; 0, 0] + !![0, 0; 0, 1] * !![0, 1; 0, 0] : BitOperator) = 0 := by
    constructor <;> ext i j <;> fin_cases i <;> fin_cases j <;> simp
  rw [operator_swap params h, operator_swap params' h, blocks_mul, Matrix.mul_fin_two]
  · simp only [← map_mul, ← map_add, hone.1, hone.2, hzero.1, hzero.2, map_one, map_zero]
    exact select_self 1
  · intro i j
    fin_cases i <;> fin_cases j <;> simp [haway]

/-- The inverse of a controlled gate is the gate itself, and so is that of its
target. -/
theorem inverse?_controlled {g g' target : Gate} (h : inverse? g = some g')
    (htarget : g.target? = some target) : g' = g ∧ inverse? target = some target := by
  cases g <;> cases htarget <;> cases h <;> exact ⟨rfl, rfl⟩

/-- A gate and its inverse cancel on all qubits. -/
theorem operator_inverse_mul {g g' : Gate} (h : inverse? g = some g') (params params' : List ℝ)
    {ws : List (Fin n)} (hnodup : ws.Nodup) (hlength : ws.length = g.numQubits) :
    (ofGate g' params' (ws.map Fin.val)).operator n *
      (ofGate g params (ws.map Fin.val)).operator n = 1 := by
  have hunitary : g.isUnitary = true := by
    cases g <;> cases h <;> rfl
  revert g'
  refine Gate.controls_induction (P := fun g ws => ∀ {g'}, inverse? g = some g' →
    (ofGate g' params' (ws.map Fin.val)).operator n *
    (ofGate g params (ws.map Fin.val)).operator n = 1)
      ?_ ?_ ?_ ?_ hunitary hnodup hlength
  · intro g q hone _ g' h
    rw [List.map_singleton, operator_of_wire rfl, operator_of_wire rfl, ← map_mul]
    rw [bitOperator_inverse_mul h hone, map_one]
  · rintro p q hne _ ⟨⟩
    exact swap_mul_swap params' params hne
  · rintro p q hne _ ⟨⟩
  · intro g target q ws htarget hnodup hlength ih g' h
    obtain ⟨rfl, htarget'⟩ := inverse?_controlled h htarget
    rw [operator_controlled_mul htarget params' params hnodup hlength, ih htarget', select_self]

/-- An inverse pair has no effect. -/
theorem operator_mul_of_isInversePair {a b : Operation ℝ} (ha : a.WellFormed n m)
    (h : isInversePair a b = true) : b.operator n * a.operator n = 1 := by
  have hunitary := (isUnitary_of_isInversePair h).1
  rw [isInversePair] at h
  split at h
  · next g hkind =>
    simp only [Bool.and_eq_true, Option.any_eq_true, beq_iff_eq] at h
    obtain ⟨⟨g', hinverse, hkind'⟩, hqubits⟩ := h
    have hsymmetric : isSymmetric a.kind = true → isSymmetric (.gate g') = true := by
      rw [hkind]
      cases g <;> cases hinverse <;> decide
    have hg : g.isUnitary = true := by
      simpa [Operation.isUnitary, hkind, Kind.gate?] using hunitary
    obtain ⟨ws, hws, hnodup, hlength⟩ := ha.exists_wires_of_kind hkind hg
    rw [operator_of_sameQubits hqubits hkind' hsymmetric, operator_eq_ofGate hkind, hws]
    exact operator_inverse_mul hinverse a.params b.params hnodup hlength
  · cases h

/-! ## Rotations about one axis -/

/-- Rotations on one qubit merge up to a phase. -/
theorem turn_merge {g : Gate} {half : Nat} (h : halfTurns? g = some half) (hone : g.numQubits = 1)
    (θ θ' φ φ' lam lam' : ℝ) (k : ℤ) (hphase : g = .prx → ∃ l : ℤ, φ - φ' = l * (2 * Real.pi)) :
    Turn.ofKind (θ + θ' - k * (half * Real.pi)) φ lam g =
      Turn.ofKind θ' φ' lam' g * Turn.ofKind θ φ lam g := by
  have hturn (a : Pauli) :
      Turn.about a (θ + θ' - k * (2 * Real.pi)) = Turn.about a θ' * Turn.about a θ := by
    rw [Turn.about_sub_int, add_comm, Turn.about_add]
  cases g <;> cases h
  case rx => exact hturn .x
  case ry => exact hturn .y
  case rz => exact hturn .z
  case p => exact hturn .z
  case prx =>
    obtain ⟨l, hl⟩ := hphase rfl
    have hphi : Turn.about .z φ' = Turn.about .z φ := by
      rw [← Turn.about_sub_int .z φ l, ← hl, sub_sub_cancel]
    have hneg : Turn.about .z (-φ') * Turn.about .z φ = 1 := by
      rw [← hphi, Turn.about_neg_mul]
    calc Turn.about .z φ * Turn.about .x (θ + θ' - k * (2 * Real.pi)) * Turn.about .z (-φ)
      _ = Turn.about .z φ' * Turn.about .x θ' * (Turn.about .z (-φ') * Turn.about .z φ) *
          (Turn.about .x θ * Turn.about .z (-φ)) := by
        rw [hturn, hneg, hphi, mul_one]
        simp only [mul_assoc]
      _ = _ := by
        simp only [Turn.ofKind, mul_assoc]
  all_goals exact absurd hone (by decide)

/-- Controlled gates merge as their targets do. -/
theorem controlled_merge {g target : Gate} (hg : g.target? = some target)
    (hone : target.numQubits = 1) {params params' merged : List ℝ} {p q : Fin n} (h : p ≠ q)
    (hmerge : (ofGate target merged []).bitOperator =
      (ofGate target params' []).bitOperator * (ofGate target params []).bitOperator) :
    (ofGate g merged [(p : Nat), (q : Nat)]).operator n =
      (ofGate g params' [(p : Nat), (q : Nat)]).operator n *
        (ofGate g params [(p : Nat), (q : Nat)]).operator n := by
  rw [operator_controlled_one merged hg hone h, operator_controlled_one params' hg hone h,
    operator_controlled_one params hg hone h, select_mul (one_mem _) (onWire_mem_away h.symm _),
    one_mul, ← map_mul, hmerge]

theorem phaseShift_merge (θ θ' : ℝ) (k : ℤ) :
    phaseShift (θ + θ' - k * (2 * Real.pi)) = phaseShift θ' * phaseShift θ := by
  rw [phaseShift_sub_int, add_comm, phaseShift_add]

/-- After two full turns there is no sign. -/
theorem rotation_merge (a : Pauli) (θ θ' : ℝ) (k : ℤ) :
    rotation a (θ + θ' - k * (4 * Real.pi)) = rotation a θ' * rotation a θ := by
  have hangle : θ + θ' - k * (4 * Real.pi) = θ' + θ - ((2 * k : ℤ) : ℝ) * (2 * Real.pi) := by
    push_cast
    ring
  rw [hangle, rotation_sub_int, zpow_mul, rotation_add]
  simp

/-- A full turn changes the sign of both blocks. -/
theorem rzz_merge (θ θ' : ℝ) (k : ℤ) (rest rest' : List ℝ) {p q : Fin n} (h : p ≠ q) :
    (ofGate .rzz ((θ + θ' - k * (2 * Real.pi)) :: rest) [(p : Nat), (q : Nat)]).operator n =
      (-1 : ℂ) ^ k • ((ofGate .rzz (θ' :: rest') [(p : Nat), (q : Nat)]).operator n *
        (ofGate .rzz (θ :: rest) [(p : Nat), (q : Nat)]).operator n) := by
  have haway (M : BitOperator) : onWire q M ∈ away p := onWire_mem_away h.symm M
  have hangle : -(θ + θ' - k * (2 * Real.pi)) = -θ' + -θ - ((-k : ℤ) : ℝ) * (2 * Real.pi) := by
    push_cast
    ring
  have hsign : (-1 : ℂ) ^ (-k) = (-1) ^ k := by
    rw [zpow_neg, ← inv_zpow, inv_neg_one]
  simp only [operator_rzz _ h, List.getD_cons_zero]
  rw [hangle, rotation_sub_int, rotation_sub_int, hsign, select_mul (haway _) (haway _),
    ← map_mul, ← map_mul, ← rotation_add, ← rotation_add, add_comm θ, map_smul, map_smul,
    select_smul]

/-- Rotations on two qubits merge up to a phase. -/
theorem pair_merge {g : Gate} {half : Nat} (h : halfTurns? g = some half) (htwo : g.numQubits = 2)
    (θ θ' : ℝ) (rest rest' : List ℝ) (k : ℤ) {p q : Fin n} (hne : p ≠ q) :
    ∃ phase : ℂ, ‖phase‖ = 1 ∧
      (ofGate g ((θ + θ' - k * (half * Real.pi)) :: rest) [(p : Nat), (q : Nat)]).operator n =
        phase • ((ofGate g (θ' :: rest') [(p : Nat), (q : Nat)]).operator n *
          (ofGate g (θ :: rest) [(p : Nat), (q : Nat)]).operator n) := by
  cases g <;> cases h
  case cp =>
    refine ⟨1, norm_one, (controlled_merge rfl rfl hne ?_).trans (one_smul ℂ _).symm⟩
    rw [bitOperator_p, bitOperator_p, bitOperator_p]
    exact phaseShift_merge θ θ' k
  case crz =>
    refine ⟨1, norm_one, (controlled_merge rfl rfl hne ?_).trans (one_smul ℂ _).symm⟩
    rw [bitOperator_rz, bitOperator_rz, bitOperator_rz]
    exact rotation_merge .z θ θ' k
  case rzz => exact ⟨(-1) ^ k, by simp, rzz_merge θ θ' k rest rest' hne⟩
  all_goals exact absurd htwo (by decide)

/-- Rotations with the same axis merge up to a phase, on all qubits. -/
theorem operator_merge {g : Gate} {half : Nat} (h : halfTurns? g = some half) (θ θ' : ℝ)
    (rest rest' : List ℝ) (k : ℤ)
    (hphase : g = .prx → ∃ l : ℤ, rest.getD 0 0 - rest'.getD 0 0 = l * (2 * Real.pi))
    {ws : List (Fin n)} (hnodup : ws.Nodup) (hlength : ws.length = g.numQubits) :
    ∃ phase : ℂ, ‖phase‖ = 1 ∧
      (ofGate g ((θ + θ' - k * (half * Real.pi)) :: rest) (ws.map Fin.val)).operator n =
        phase • ((ofGate g (θ' :: rest') (ws.map Fin.val)).operator n *
          (ofGate g (θ :: rest) (ws.map Fin.val)).operator n) := by
  have hgate : g.isUnitary = true ∧ (g.numQubits = 1 ∨ g.numQubits = 2) := by
    cases g <;> cases h <;> decide
  rcases hgate with ⟨hunitary, hone | htwo⟩
  · obtain ⟨q, rfl⟩ := List.length_eq_one_iff.mp (hlength.trans hone)
    have hturn (params : List ℝ) := Turn.turn_eq hone hunitary params [(q : Nat)]
    have hmerge :
        ((ofGate g ((θ + θ' - k * (half * Real.pi)) :: rest) [(q : Nat)]).bitOperator : Turn) =
        ((ofGate g (θ' :: rest') [(q : Nat)]).bitOperator *
          (ofGate g (θ :: rest) [(q : Nat)]).bitOperator : BitOperator) := by
      refine (hturn _).trans
        (.trans ?_ (congrArg₂ (· * ·) (hturn (θ' :: rest')) (hturn (θ :: rest))).symm)
      exact turn_merge h hone θ θ' _ _ _ _ k hphase
    obtain ⟨phase, hnorm, heq⟩ := (Con.eq _).mp hmerge
    refine ⟨phase, hnorm, ?_⟩
    rw [List.map_singleton, operator_of_wire rfl, operator_of_wire rfl, operator_of_wire rfl,
      heq, map_smul, map_mul]
  · obtain ⟨p, q, rfl⟩ := List.length_eq_two.mp (hlength.trans htwo)
    exact pair_merge h htwo θ θ' rest rest' k (by simpa using hnodup)

/-! ## Merging -/

/-- The kinds with a period are the rotations, and the period is a number of
half turns. -/
theorem exists_halfTurns_of_period? {kind : Kind} {period : ℝ} (h : period? kind = some period) :
    ∃ (g : Gate) (half : Nat), kind = .gate g ∧ halfTurns? g = some half ∧
      period = half * Real.pi := by
  cases kind with
  | custom name novel => cases h
  | gate g =>
    cases hhalf : halfTurns? g with
    | none => simp [period?, Kind.gate?, hhalf] at h
    | some half =>
      refine ⟨g, half, rfl, hhalf, ?_⟩
      simpa [period?, Kind.gate?, hhalf] using h.symm

theorem of_halfTurns? {g : Gate} {half : Nat} (h : halfTurns? g = some half) :
    g.isUnitary = true ∧ 0 < g.numParams ∧ 0 < half := by
  cases g <;> cases h <;> decide

/-- A well-formed rotation has an angle. -/
theorem exists_angle {op : Operation ℝ} {g : Gate} {half : Nat} (h : op.WellFormed n m)
    (hkind : op.kind = .gate g) (hg : halfTurns? g = some half) :
    ∃ θ rest, op.params = θ :: rest := by
  obtain ⟨hunitary, hpos, -⟩ := of_halfTurns? hg
  have hlength := (Decomposition.lengths_of_wellFormed h hkind hunitary).2
  exact List.exists_cons_of_length_pos (hlength ▸ hpos)

/-- Rotations of the same kind on the same qubits merge. -/
theorem merge?_of_same {a b : Operation ℝ} {period : ℝ} (hperiod : period? a.kind = some period)
    (hkind : a.kind = b.kind) (hqubits : sameQubits a b = true)
    (hphase : a.kind = .gate .prx → ∃ k : ℤ, a.param 1 - b.param 1 = k * (2 * Real.pi)) :
    merge? a b =
      some { a with params := a.params.set 0 (normalise (a.param 0 + b.param 0) period) } := by
  have hsame : (a.kind == b.kind && sameQubits a b && sameAxis a b) = true := by
    rw [hqubits, sameAxis_of_fullTurns hphase, beq_iff_eq.mpr hkind]
    rfl
  rw [merge?, hperiod]
  exact if_pos hsame

/-- The effect of two rotations is that of one with the reduced sum of their
angles. -/
theorem operator_of_reduce {a b : Operation ℝ} {period : ℝ} (ha : a.WellFormed n m)
    (hb : b.WellFormed n m) (hperiod : period? a.kind = some period) (hkind : a.kind = b.kind)
    (hqubits : sameQubits a b = true)
    (hphase : a.kind = .gate .prx → ∃ k : ℤ, a.param 1 - b.param 1 = k * (2 * Real.pi)) :
    ∃ phase : ℂ, ‖phase‖ = 1 ∧
      ({ a with params := a.params.set 0 (reduce (a.param 0 + b.param 0) period) } :
        Operation ℝ).operator n = phase • (b.operator n * a.operator n) := by
  obtain ⟨g, half, hg, hhalf, rfl⟩ := exists_halfTurns_of_period? hperiod
  have hg' : b.kind = .gate g := hkind ▸ hg
  obtain ⟨θ, rest, hparams⟩ := exists_angle ha hg hhalf
  obtain ⟨θ', rest', hparams'⟩ := exists_angle hb hg' hhalf
  obtain ⟨ws, hws, hnodup, hlength⟩ := ha.exists_wires_of_kind hg (of_halfTurns? hhalf).1
  obtain ⟨k, hk⟩ := reduce_eq_sub (θ + θ') (half * Real.pi)
  have hangle : a.param 0 + b.param 0 = θ + θ' := by
    rw [param, param, hparams, hparams']
    rfl
  have hphase' : g = .prx → ∃ l : ℤ, rest.getD 0 0 - rest'.getD 0 0 = l * (2 * Real.pi) := by
    intro hprx
    simpa [param, hparams, hparams'] using hphase (hprx ▸ hg)
  have hreduced :
      ({ a with params := a.params.set 0 (reduce (a.param 0 + b.param 0) (half * Real.pi)) } :
      Operation ℝ).operator n =
        (ofGate g ((θ + θ' - k * (half * Real.pi)) :: rest) (ws.map Fin.val)).operator n := by
    rw [hangle, hk, hparams, List.set_cons_zero, ← hws]
    exact operator_eq_ofGate hg
  rw [hreduced, operator_of_sameQubits hqubits hg' (hg ▸ id), operator_eq_ofGate hg, hparams,
    hparams', hws]
  exact operator_merge hhalf θ θ' rest rest' k hphase' hnodup hlength

/-- The local rules on pairs of gates are exact.  Gates that are known to
commute do so, inverse pairs have no effect, and rotations of the same kind
merge: up to a phase, the effect of both is that of the first one with the sum
of their angles, reduced to at most half a period.  The angle of the merged
gate is the reduced one, up to the tolerance. -/
theorem pair_rules_exact {a b : Operation ℝ} (ha : a.WellFormed n m) (hb : b.WellFormed n m) :
    (commute a b = true → Commute (a.operator n) (b.operator n)) ∧
      (isInversePair a b = true → b.operator n * a.operator n = 1) ∧
      ∀ period : ℝ, period? a.kind = some period → a.kind = b.kind → sameQubits a b = true →
        (a.kind = .gate .prx → ∃ k : ℤ, a.param 1 - b.param 1 = k * (2 * Real.pi)) →
        let θ := reduce (a.param 0 + b.param 0) period
        |θ| ≤ period / 2 ∧
          (∃ phase : ℂ, ‖phase‖ = 1 ∧
            ({ a with params := a.params.set 0 θ } : Operation ℝ).operator n =
            phase • (b.operator n * a.operator n)) ∧
          merge? a b =
          some { a with params := a.params.set 0 (if |θ| < tolerance then 0 else θ) } := by
  refine ⟨commute_operator ha hb, operator_mul_of_isInversePair ha, ?_⟩
  intro period hperiod hkind hqubits hphase
  refine ⟨abs_reduce_le _ ?_, operator_of_reduce ha hb hperiod hkind hqubits hphase, ?_⟩
  · obtain ⟨g, half, -, hhalf, rfl⟩ := exists_halfTurns_of_period? hperiod
    exact mul_pos (Nat.cast_pos.mpr (of_halfTurns? hhalf).2.2) Real.pi_pos
  · rw [merge?_of_same hperiod hkind hqubits hphase, normalise_real]

/-- Controlled flips that share a control and a target, a controlled phase flip
and its exchange, and phased rotations whose axes are a full turn apart. -/
theorem pair_rules_exact_shared :
    Commute ((ofGate .cx [] [0, 1]).operator 3) ((ofGate .ccx [] [0, 2, 1]).operator 3) ∧
      (ofGate .cz [] [1, 0]).operator 2 * (ofGate .cz [] [0, 1]).operator 2 = 1 ∧
      ∃ phase : ℂ, ‖phase‖ = 1 ∧ (ofGate .prx [reduce 4 (2 * Real.pi), 0] [0]).operator 1 =
        phase • ((ofGate .prx [1, 2 * Real.pi] [0]).operator 1 *
          (ofGate .prx [3, 0] [0]).operator 1) := by
  refine ⟨?_, ?_, ?_⟩
  · exact (pair_rules_exact (m := 0) (a := ofGate .cx [] [0, 1]) (b := ofGate .ccx [] [0, 2, 1])
      (by decide) (by decide)).1 (by decide)
  · exact (pair_rules_exact (m := 0) (a := ofGate .cz [] [0, 1]) (b := ofGate .cz [] [1, 0])
      (by decide) (by decide)).2.1 (by decide)
  · have hperiod : (period? (.gate .prx) : Option ℝ) = some (2 * Real.pi) := by
      simp [period?, Kind.gate?, halfTurns?]
    have haxis : ∃ k : ℤ, (0 : ℝ) - 2 * Real.pi = k * (2 * Real.pi) := ⟨-1, by simp⟩
    have hmerge := ((pair_rules_exact (n := 1) (m := 0) (a := ofGate .prx [3, 0] [0])
      (b := ofGate .prx [1, 2 * Real.pi] [0]) (by decide) (by decide)).2.2
        (2 * Real.pi) hperiod rfl (by decide) fun _ => haxis).2.1
    have hsum : (3 : ℝ) + 1 = 4 := by norm_num
    simpa [ofGate, param, hsum] using hmerge

end QuantumCompiler.Peephole
