import QuantumCompiler.Decomposition.Expand
import QuantumCompiler.Proofs.WellFormed

/-!
# The table of decomposition rules

`Rule.Fits` collects what the rest of the library needs of a rule: its steps
are unitary gates with the right numbers of operands, and they name operands
that the decomposed gate has, each at most once.  `rules_fit` checks the whole
table.  Everything else about instantiated rules follows from it.
-/

namespace QuantumCompiler.Decomposition

variable {α : Type}

/-- A step fits a decomposed gate on a number of qubits. -/
def Step.Fits (arity : Nat) (step : Step) : Prop :=
  step.gate.isUnitary = true ∧ step.params.length = step.gate.numParams ∧
    step.operands.length = step.gate.numQubits ∧ step.operands.Nodup ∧
    ∀ i ∈ step.operands, i < arity

instance (arity : Nat) (step : Step) : Decidable (step.Fits arity) :=
  inferInstanceAs (Decidable (_ ∧ _))

/-- A rule decomposes a unitary gate into fitting steps. -/
def Rule.Fits (rule : Rule) : Prop :=
  rule.gate.isUnitary = true ∧ ∀ step ∈ rule.steps, step.Fits rule.gate.numQubits

instance (rule : Rule) : Decidable rule.Fits := inferInstanceAs (Decidable (_ ∧ _))

theorem rules_fit : ∀ rule ∈ rules, rule.Fits := by decide

theorem isUnitary_step {rule : Rule} (hmem : rule ∈ rules) : ∀ step ∈ rule.steps,
    step.gate.isUnitary = true :=
  fun step hstep => ((rules_fit rule hmem).2 step hstep).1

/-! ## Instantiated rules -/

/-- The numbers of operands of a well-formed unitary gate. -/
theorem lengths_of_wellFormed {n m : Nat} {op : Operation α} {g : Gate} (hop : op.WellFormed n m)
    (hkind : op.kind = .gate g) (h : g.isUnitary = true) :
    op.qubits.length = g.numQubits ∧ op.params.length = g.numParams := by
  obtain ⟨hqubits, hparams, -⟩ :=
    (Operation.shapeFault?_gate hkind (Gate.ne_barrier_of_isUnitary h)).mp hop.shape
  exact ⟨hqubits, hparams⟩

/-- The qubit that a step names. -/
theorem getD_qubits_mem {op : Operation α} {i : Nat} (h : i < op.qubits.length) :
    op.qubits.getD i 0 ∈ op.qubits := by
  rw [List.getD_eq_getElem?_getD, List.getElem?_eq_getElem h]
  exact List.getElem_mem h

variable [RealArith α] {n m : Nat} {op : Operation α} {rule : Rule}

/-- The steps of a rule act on qubits of the decomposed operation. -/
theorem qubits_instantiate (hfit : rule.Fits) (hlength : op.qubits.length = rule.gate.numQubits) :
    ∀ o ∈ rule.instantiate op, ∀ q ∈ o.qubits, q ∈ op.qubits := by
  intro o ho q hq
  obtain ⟨step, hstep, rfl⟩ := List.mem_map.mp ho
  obtain ⟨i, hi, rfl⟩ := List.mem_map.mp hq
  obtain ⟨-, -, -, -, hlt⟩ := hfit.2 step hstep
  exact getD_qubits_mem (by rw [hlength]; exact hlt i hi)

/-- The kind of a step is that of the rule. -/
theorem kind_instantiate {o : Operation α} (ho : o ∈ rule.instantiate op) :
    ∃ step ∈ rule.steps, o.kind = .gate step.gate := by
  obtain ⟨step, hstep, rfl⟩ := List.mem_map.mp ho
  exact ⟨step, hstep, rfl⟩

/-- The steps of a rule in place of a well-formed operation are well formed. -/
theorem wellFormed_instantiate (hfit : rule.Fits) (hop : op.WellFormed n m)
    (hkind : op.kind = .gate rule.gate) :
    ∀ o ∈ rule.instantiate op, o.WellFormed n m := by
  have hlength := (lengths_of_wellFormed hop hkind hfit.1).1
  intro o ho
  obtain ⟨step, hstep, rfl⟩ := List.mem_map.mp ho
  obtain ⟨hunitary, hparams, hoperands, hnodup, hlt⟩ := hfit.2 step hstep
  refine Operation.wellFormed_ofGate (Gate.ne_barrier_of_isUnitary hunitary)
    (Gate.numClbits_of_isUnitary hunitary) (by simpa using hparams)
      (by simpa using hoperands) ?_ ?_
  · intro q hq
    obtain ⟨i, hi, rfl⟩ := List.mem_map.mp hq
    exact hop.qubits_lt _ (getD_qubits_mem (by rw [hlength]; exact hlt i hi))
  · -- Distinct operands are distinct qubits, because the decomposed operation repeats none.
    refine List.Nodup.map_on (fun i hi j hj hij => ?_) hnodup
    have hi' : i < op.qubits.length := by rw [hlength]; exact hlt i hi
    have hj' : j < op.qubits.length := by rw [hlength]; exact hlt j hj
    rw [List.getD_eq_getElem?_getD, List.getD_eq_getElem?_getD, List.getElem?_eq_getElem hi',
      List.getElem?_eq_getElem hj'] at hij
    exact (List.Nodup.getElem_inj_iff hop.nodup).mp hij

/-- Renaming qubits before or after a rule is applied gives the same steps. -/
theorem instantiate_mapQubits (hfit : rule.Fits)
    (hlength : op.qubits.length = rule.gate.numQubits) (f : Nat → Nat) :
    rule.instantiate (op.mapQubits f) = (rule.instantiate op).map (·.mapQubits f) := by
  rw [Rule.instantiate, Rule.instantiate, List.map_map]
  refine List.map_congr_left fun step hstep => ?_
  have hoperands : (step.operands.map fun i => (op.mapQubits f).qubits.getD i 0) =
      (step.operands.map fun i => op.qubits.getD i 0).map f := by
    rw [List.map_map]
    refine List.map_congr_left fun i hi => ?_
    have hi' : i < op.qubits.length := by
      rw [hlength]
      exact (hfit.2 step hstep).2.2.2.2 i hi
    simp [hi']
  show Operation.ofGate _ _ _ = _
  rw [hoperands]
  rfl

end QuantumCompiler.Decomposition
