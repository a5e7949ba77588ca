import QuantumCompiler.Circuit.Basic
import QuantumCompiler.Decomposition.Plan

/-!
# Expansion into native operations

`toNative` replaces every operation that is not native by the operations of its chosen rule, and
those again, until only native ones are left.  `unroll` replaces the operations on more than two
qubits, whatever is native.
-/

namespace QuantumCompiler.Decomposition

variable {α : Type}

/-- Why an operation was not expanded. -/
inductive Cause where
  /-- No rules lead to native kinds. -/
  | noRule (kind natives : String)
  /-- The operation has the wrong number of parameters. -/
  | paramCount (kind : String) (expected : Nat)
  /-- An operation of the expansion does not fit into the circuit. -/
  | fault (fault : Fault)
  deriving Repr, DecidableEq

/-- The wording of a cause. -/
def Cause.message : Cause → String
  | noRule kind natives => s!"no decomposition of {kind} into native gates {natives}"
  | paramCount kind expected => s!"{kind} expects {expected} parameters"
  | fault f => f.message

/-- The first operation that cannot be expressed by native ones. -/
structure ExpansionError where
  /-- Index of the operation. -/
  index : Nat
  /-- Its kind. -/
  kind : Kind
  /-- What is wrong. -/
  cause : Cause
  deriving DecidableEq

/-- The wording of a failed expansion. -/
def ExpansionError.message (e : ExpansionError) : String :=
  s!"translation error (operation {e.index}): {e.cause.message}"

/-- The kind of an operation has rules, but the operation has not the parameters that they
need. -/
def paramCause? (op : Operation α) : Option Cause :=
  match op.kind with
  | .gate g =>
    if op.params.length == g.numParams then none else some (.paramCount g.name g.numParams)
  | .custom .. => none

/-- An operation as it is, if it fits into a circuit with the given numbers of qubits and
classical bits. -/
def keep (numQubits numClbits : Nat) (op : Operation α) : Except Cause (List (Operation α)) :=
  match op.fault? numQubits numClbits with
  | some f => .error (.fault f)
  | none => .ok [op]

section Expansion

variable [RealArith α]

/-- The native operations in place of an operation, by the first of the choices that fits it.
The steps of a choice are expanded by the choices after it. -/
def expand (natives : GateSet) (numQubits numClbits : Nat) :
    List Choice → Operation α → Except Cause (List (Operation α))
  | [], op =>
    if natives.contains op.kind then keep numQubits numClbits op
    else .error (.noRule op.kind.name natives.text)
  | choice :: rest, op =>
    if natives.contains op.kind then keep numQubits numClbits op
    else if op.kind == .gate choice.rule.gate then
      match paramCause? op with
      | some cause => .error cause
      | none =>
        ((choice.rule.instantiate op).mapM (expand natives numQubits numClbits rest)).map
          List.flatten
    else expand natives numQubits numClbits rest op

/-- The native operations in place of the operations of a list, whose indices start at a given
number. -/
def expandAll (plan : Plan) (numQubits numClbits : Nat) :
    Nat → List (Operation α) → Except ExpansionError (List (Operation α))
  | _, [] => .ok []
  | i, op :: rest =>
    match expand plan.natives numQubits numClbits plan.choices op with
    | .error cause => .error ⟨i, op.kind, cause⟩
    | .ok first =>
      match expandAll plan numQubits numClbits (i + 1) rest with
      | .error e => .error e
      | .ok others => .ok (first ++ others)

/-- Expresses a circuit by native operations. -/
def toNative (natives : GateSet) (c : Circuit α) : Except ExpansionError (Circuit α) :=
  match expandAll (Plan.ofNatives natives) c.numQubits c.numClbits 0 c.ops with
  | .ok ops => .ok { c with ops }
  | .error e => .error e

/-! ## Operations on many qubits -/

/-- The first rule for a kind. -/
def firstRule? (kind : Kind) : Option Rule := rules.find? fun r => kind == .gate r.gate

/-- The operations in place of an operation on more than two qubits, by the first rule for it,
down to a given depth. -/
def unrollOp : Nat → Operation α → List (Operation α)
  | 0, op => [op]
  | depth + 1, op =>
    if !op.isBarrier && 2 < op.arity then
      match firstRule? op.kind with
      | some rule => (rule.instantiate op).flatMap (unrollOp depth)
      | none => [op]
    else [op]

/-- Replaces all operations on more than two qubits for which there is a rule.  There are fewer
rules in a row than rules. -/
def unroll (c : Circuit α) : Circuit α := { c with ops := c.ops.flatMap (unrollOp rules.length) }

end Expansion

end QuantumCompiler.Decomposition
