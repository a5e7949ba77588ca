import QuantumCompiler.Proofs.Circuit.Checked
import QuantumCompiler.Proofs.Decomposition.Expand

/-!
# Decomposition with every access checked

The steps of a rule name operands and parameters of the decomposed operation by
position.  `instantiate_eq` says that a well-formed operation has all of them.
Unrolling adds every operation to a circuit, which must accept it, and goes on
until no rule applies; `unroll_eq` says that the circuit accepts all of them
and that the depth to which operations are unrolled is never reached.
`toNative_eq` is the same for the expansion into native operations.
-/

namespace QuantumCompiler.Checked

open Decomposition

variable {α : Type} [RealArith α]

/-! ## Steps of a rule -/

/-- The value of a parameter of a step. -/
def paramValue (params : List α) : Param → Option α
  | .fixed multiple => some (multiple.value * RealArith.pi)
  | .affine index scale offset =>
    params[index]?.map fun x => scale.value * x + offset.value * RealArith.pi

/-- The operation of a step in place of a decomposed operation. -/
def instantiateStep (op : Operation α) (step : Step) : Option (Operation α) := do
  let params ← step.params.mapM (paramValue op.params)
  let qubits ← step.operands.mapM (op.qubits[·]?)
  some (.ofGate step.gate params qubits)

/-- The operations of a rule in place of a decomposed operation. -/
def instantiate (rule : Rule) (op : Operation α) : Option (List (Operation α)) :=
  rule.steps.mapM (instantiateStep op)

/-! ## Unrolling -/

/-- The operations in place of an operation on more than two qubits.  There is
no result if the given depth is not enough. -/
def unrollOp (n m : Nat) : Nat → Operation α → Option (List (Operation α))
  | 0, _ => none
  | depth + 1, op =>
    if !op.isBarrier && 2 < op.arity then
      match firstRule? op.kind with
      | some rule => do
        let steps ← instantiate rule op
        let parts ← steps.mapM (unrollOp n m depth)
        some parts.flatten
      | none => (accept n m op).map ([·])
    else (accept n m op).map ([·])

/-- Replaces all operations on more than two qubits for which there is a rule. -/
def unroll (c : Circuit α) : Option (Circuit α) := do
  let parts ← c.ops.mapM (unrollOp c.numQubits c.numClbits rules.length)
  some { c with ops := parts.flatten }

/-! ## Expansion -/

/-- The native operations in place of an operation. -/
def expand (natives : GateSet) (n m : Nat) :
    List Choice → Operation α → Option (Except Cause (List (Operation α)))
  | [], op =>
    some (if natives.contains op.kind then keep n m op
      else .error (.noRule op.kind.name natives.text))
  | choice :: rest, op =>
    if natives.contains op.kind then some (keep n m op)
    else if op.kind == .gate choice.rule.gate then
      match paramCause? op with
      | some cause => some (.error cause)
      | none => do
        let steps ← instantiate choice.rule op
        let parts ← traverse (expand natives n m rest) steps
        some (parts.map List.flatten)
    else expand natives n m rest op

/-- The native operations in place of the operations of a list. -/
def expandAll (plan : Plan) (n m : Nat) :
    Nat → List (Operation α) → Option (Except ExpansionError (List (Operation α)))
  | _, [] => some (.ok [])
  | i, op :: rest => do
    match ← expand plan.natives n m plan.choices op with
    | .error cause => some (.error ⟨i, op.kind, cause⟩)
    | .ok first => (expandAll plan n m (i + 1) rest).map fun others => others.map (first ++ ·)

/-- Expresses a circuit by native operations. -/
def toNative (natives : GateSet) (c : Circuit α) : Option (Except ExpansionError (Circuit α)) :=
  (expandAll (Plan.ofNatives natives) c.numQubits c.numClbits 0 c.ops).map fun out =>
    out.map fun ops => { c with ops }

/-! ## Steps in range -/

/-- The parameter that a step reads is among those of the decomposed gate. -/
def reads (count : Nat) : Param → Bool
  | .fixed _ => true
  | .affine index _ _ => index < count

theorem reads_rules : ∀ rule ∈ rules, ∀ step ∈ rule.steps, ∀ param ∈ step.params,
    reads rule.gate.numParams param = true := by decide

theorem paramValue_eq {params : List α} {param : Param} (h : reads params.length param = true) :
    paramValue params param = some (param.value params) := by
  cases param with
  | fixed multiple => rfl
  | affine index scale offset =>
    have hindex : index < params.length := by simpa [reads] using h
    rw [paramValue, getElem?_list_eq hindex RealArith.zero, Option.map_some, Param.value]

variable {n m : Nat}

/-- A well-formed operation has the operands and parameters that a rule for it
names. -/
theorem instantiate_eq {rule : Rule} (hrule : rule ∈ rules) {op : Operation α}
    (hop : op.WellFormed n m) (hkind : op.kind = .gate rule.gate) :
    instantiate rule op = some (rule.instantiate op) := by
  have hfit := rules_fit rule hrule
  obtain ⟨hqubits, hparams⟩ := lengths_of_wellFormed hop hkind hfit.1
  refine mapM_eq fun step hstep => ?_
  have hvalues : step.params.mapM (paramValue op.params) =
      some (step.params.map (Param.value op.params)) :=
    mapM_eq fun param hparam =>
      paramValue_eq (hparams ▸ reads_rules rule hrule step hstep param hparam)
  have hoperands : step.operands.mapM (op.qubits[·]?) =
      some (step.operands.map fun i => op.qubits.getD i 0) :=
    mapM_eq fun i hi => getElem?_list_eq (hqubits ▸ (hfit.2 step hstep).2.2.2.2 i hi) 0
  rw [instantiateStep, hvalues, hoperands]
  rfl

/-! ## Unrolling in range -/

/-- How often rules have to be applied to an operation of a kind before it acts
on two qubits. -/
def height : Kind → Nat
  | .gate .cswap => 2
  | .gate .ccx => 1
  | _ => 0

theorem height_le (kind : Kind) : height kind ≤ 2 := by
  unfold height
  split <;> omega

/-- The steps of a rule for a wide gate are lower than the gate. -/
theorem height_rules : ∀ rule ∈ rules, 2 < rule.gate.numQubits → ∀ step ∈ rule.steps,
    height (.gate step.gate) < height (.gate rule.gate) := by decide

theorem unrollOp_eq {depth : Nat} {op : Operation α} (hop : op.WellFormed n m)
    (hdepth : height op.kind < depth) :
    unrollOp n m depth op = some (Decomposition.unrollOp depth op) := by
  induction depth generalizing op with
  | zero => omega
  | succ depth ih =>
    rw [unrollOp, Decomposition.unrollOp, accept_eq hop]
    split_ifs with hwide
    · cases hrule : firstRule? op.kind with
      | none => rfl
      | some rule =>
        obtain ⟨hmem, hkind⟩ := firstRule?_some hrule
        have hfit := rules_fit rule hmem
        have harity : 2 < rule.gate.numQubits := by
          rw [← (lengths_of_wellFormed hop hkind hfit.1).1]
          simp only [Bool.and_eq_true, decide_eq_true_eq] at hwide
          exact hwide.2
        have hsteps : (rule.instantiate op).mapM (unrollOp n m depth) =
            some ((rule.instantiate op).map (Decomposition.unrollOp depth)) := by
          refine mapM_eq fun o ho => ih (wellFormed_instantiate hfit hop hkind o ho) ?_
          obtain ⟨step, hstep, hkind'⟩ := kind_instantiate ho
          have hlower := height_rules rule hmem harity step hstep
          rw [hkind']
          rw [hkind] at hdepth
          omega
        simp only [instantiate_eq hmem hop hkind, hsteps, Option.bind_eq_bind, Option.bind_some,
          List.flatMap]
    · rfl

/-- Unrolling a well-formed circuit ends, and every operation that it gives is
accepted. -/
theorem unroll_eq {c : Circuit α} (hc : c.WellFormed) :
    unroll c = some (Decomposition.unroll c) := by
  have hops : c.ops.mapM (unrollOp c.numQubits c.numClbits rules.length) =
      some (c.ops.map (Decomposition.unrollOp rules.length)) :=
    mapM_eq fun op hop => unrollOp_eq (hc op hop)
      (Nat.lt_of_le_of_lt (height_le op.kind) (by decide))
  rw [unroll, hops, Decomposition.unroll, List.flatMap]
  rfl

/-! ## Expansion in range -/

theorem expand_eq {natives : GateSet} {choices : List Choice}
    (htable : ∀ c ∈ choices, c.rule ∈ rules) {op : Operation α} (hop : op.WellFormed n m) :
    expand natives n m choices op = some (Decomposition.expand natives n m choices op) := by
  induction choices generalizing op with
  | nil => rw [expand, Decomposition.expand]
  | cons choice rest ih =>
    obtain ⟨hmem, hrest⟩ := List.forall_mem_cons.mp htable
    rw [expand, Decomposition.expand, ih hrest hop]
    split_ifs with hnative hkind
    · rfl
    · have hkind : op.kind = .gate choice.rule.gate := by simpa using hkind
      have hfit := rules_fit _ hmem
      have hsteps : traverse (expand natives n m rest) (choice.rule.instantiate op) =
          some ((choice.rule.instantiate op).mapM (Decomposition.expand natives n m rest)) :=
        traverse_eq fun o ho => ih hrest (wellFormed_instantiate hfit hop hkind o ho)
      rw [paramCause?_of_wellFormed hop hkind hfit.1, instantiate_eq hmem hop hkind]
      simp only [Option.bind_eq_bind, Option.bind_some, hsteps]
    · rfl

theorem expandAll_eq {plan : Plan} (htable : ∀ c ∈ plan.choices, c.rule ∈ rules)
    {ops : List (Operation α)} (hops : ∀ op ∈ ops, op.WellFormed n m) (i : Nat) :
    expandAll plan n m i ops = some (Decomposition.expandAll plan n m i ops) := by
  induction ops generalizing i with
  | nil => rfl
  | cons op rest ih =>
    obtain ⟨hop, hrest⟩ := List.forall_mem_cons.mp hops
    rw [expandAll, Decomposition.expandAll, expand_eq htable hop, ih hrest]
    cases Decomposition.expand plan.natives n m plan.choices op with
    | error cause => rfl
    | ok first => cases Decomposition.expandAll plan n m (i + 1) rest <;> rfl

theorem toNative_eq {c : Circuit α} (hc : c.WellFormed) (natives : GateSet) :
    toNative natives c = some (Decomposition.toNative natives c) := by
  have htable := (Plan.ordered_ofNatives natives).mem_rules
  rw [toNative, expandAll_eq htable hc, Decomposition.toNative]
  cases Decomposition.expandAll (Plan.ofNatives natives) c.numQubits c.numClbits 0 c.ops <;> rfl

end QuantumCompiler.Checked
