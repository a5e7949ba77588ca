import QuantumCompiler.Circuit.Operation

/-!
# Decomposition rules

A rule expresses a gate by a sequence of other gates on the same qubits, exactly up to a phase.
The steps of a rule name qubits by their position among the operands of the decomposed gate, and
compute their parameters from its parameters.  `rules` is the table of all rules.
-/

namespace QuantumCompiler.Decomposition

variable {α : Type}

/-- A fraction of two integers. -/
structure Ratio where
  /-- Numerator. -/
  numerator : Int
  /-- Denominator. -/
  denominator : Nat
  deriving Repr, DecidableEq

/-- The number of a fraction. -/
def Ratio.value [RealArith α] (r : Ratio) : α :=
  let magnitude : α := (r.numerator.natAbs : α) / (r.denominator : α)
  if r.numerator < 0 then -magnitude else magnitude

/-- How a parameter of a step is computed. -/
inductive Param where
  /-- A fixed multiple of a half turn. -/
  | fixed (multiple : Ratio)
  /-- A multiple of a parameter of the decomposed gate, plus a multiple of a half turn. -/
  | affine (index : Nat) (scale offset : Ratio)
  deriving Repr, DecidableEq

namespace Param

/-- The angle zero. -/
def flat : Param := fixed ⟨0, 1⟩

/-- A half turn. -/
def half : Param := fixed ⟨1, 1⟩

/-- A quarter turn. -/
def quarter : Param := fixed ⟨1, 2⟩

/-- A quarter turn backwards. -/
def negQuarter : Param := fixed ⟨-1, 2⟩

/-- An eighth of a turn. -/
def eighth : Param := fixed ⟨1, 4⟩

/-- An eighth of a turn backwards. -/
def negEighth : Param := fixed ⟨-1, 4⟩

/-- A parameter as it is. -/
def same (index : Nat) : Param := affine index ⟨1, 1⟩ ⟨0, 1⟩

/-- A parameter with its sign changed. -/
def negated (index : Nat) : Param := affine index ⟨-1, 1⟩ ⟨0, 1⟩

/-- Half of a parameter. -/
def halved (index : Nat) : Param := affine index ⟨1, 2⟩ ⟨0, 1⟩

/-- Half of a parameter with its sign changed. -/
def negHalved (index : Nat) : Param := affine index ⟨-1, 2⟩ ⟨0, 1⟩

/-- The value of a parameter, given those of the decomposed gate. -/
def value [RealArith α] (params : List α) : Param → α
  | fixed multiple => multiple.value * RealArith.pi
  | affine index scale offset =>
    scale.value * params.getD index RealArith.zero + offset.value * RealArith.pi

end Param

/-- A gate in a rule. -/
structure Step where
  /-- Kind of the gate. -/
  gate : Gate
  /-- Positions of its qubits among the operands of the decomposed gate. -/
  operands : List Nat
  /-- How its parameters are computed. -/
  params : List Param
  deriving Repr, DecidableEq

/-- The step of a kind on given operands. -/
def Step.on (gate : Gate) (operands : List Nat) (params : List Param := []) : Step :=
  ⟨gate, operands, params⟩

/-- The operation of a step in place of a decomposed operation. -/
def Step.instantiate [RealArith α] (step : Step) (op : Operation α) : Operation α :=
  .ofGate step.gate (step.params.map (Param.value op.params))
    (step.operands.map fun i => op.qubits.getD i 0)

/-- A sequence of gates with the effect of a single one. -/
structure Rule where
  /-- Kind of the decomposed gate. -/
  gate : Gate
  /-- Steps in time order. -/
  steps : List Step
  deriving Repr, DecidableEq

/-- The operations of a rule in place of a decomposed operation. -/
def Rule.instantiate [RealArith α] (rule : Rule) (op : Operation α) : List (Operation α) :=
  rule.steps.map (·.instantiate op)

/-- All rules.  Where a kind has several, earlier ones are preferred among equally cheap ones. -/
def rules : List Rule :=
  [ ⟨.id, []⟩,
    -- Single qubit Cliffords.
    ⟨.h, [.on .u [0] [.quarter, .flat, .half]]⟩,
    ⟨.h, [.on .rz [0] [.quarter], .on .sx [0], .on .rz [0] [.quarter]]⟩,
    ⟨.h, [.on .rz [0] [.half], .on .ry [0] [.quarter]]⟩,
    ⟨.h, [.on .prx [0] [.quarter, .quarter], .on .prx [0] [.half, .flat]]⟩,
    ⟨.x, [.on .rx [0] [.half]]⟩,
    ⟨.x, [.on .prx [0] [.half, .flat]]⟩,
    ⟨.x, [.on .u [0] [.half, .flat, .half]]⟩,
    ⟨.x, [.on .sx [0], .on .sx [0]]⟩,
    ⟨.y, [.on .ry [0] [.half]]⟩,
    ⟨.y, [.on .prx [0] [.half, .quarter]]⟩,
    ⟨.y, [.on .u [0] [.half, .quarter, .quarter]]⟩,
    ⟨.y, [.on .rz [0] [.half], .on .x [0]]⟩,
    ⟨.z, [.on .rz [0] [.half]]⟩,
    ⟨.z, [.on .p [0] [.half]]⟩,
    ⟨.z, [.on .u [0] [.flat, .flat, .half]]⟩,
    ⟨.z, [.on .prx [0] [.half, .flat], .on .prx [0] [.half, .quarter]]⟩,
    ⟨.s, [.on .rz [0] [.quarter]]⟩,
    ⟨.s, [.on .p [0] [.quarter]]⟩,
    ⟨.s, [.on .u [0] [.flat, .flat, .quarter]]⟩,
    ⟨.sdg, [.on .rz [0] [.negQuarter]]⟩,
    ⟨.sdg, [.on .p [0] [.negQuarter]]⟩,
    ⟨.sdg, [.on .u [0] [.flat, .flat, .negQuarter]]⟩,
    ⟨.t, [.on .rz [0] [.eighth]]⟩,
    ⟨.t, [.on .p [0] [.eighth]]⟩,
    ⟨.t, [.on .u [0] [.flat, .flat, .eighth]]⟩,
    ⟨.tdg, [.on .rz [0] [.negEighth]]⟩,
    ⟨.tdg, [.on .p [0] [.negEighth]]⟩,
    ⟨.tdg, [.on .u [0] [.flat, .flat, .negEighth]]⟩,
    ⟨.sx, [.on .rx [0] [.quarter]]⟩,
    ⟨.sx, [.on .prx [0] [.quarter, .flat]]⟩,
    ⟨.sx, [.on .u [0] [.quarter, .negQuarter, .quarter]]⟩,
    ⟨.sxdg, [.on .rx [0] [.negQuarter]]⟩,
    ⟨.sxdg, [.on .prx [0] [.negQuarter, .flat]]⟩,
    ⟨.sxdg, [.on .sx [0], .on .x [0]]⟩,
    -- Single qubit rotations.
    ⟨.rx, [.on .prx [0] [.same 0, .flat]]⟩,
    ⟨.rx, [.on .u [0] [.same 0, .negQuarter, .quarter]]⟩,
    ⟨.rx, [.on .h [0], .on .rz [0] [.same 0], .on .h [0]]⟩,
    ⟨.ry, [.on .prx [0] [.same 0, .quarter]]⟩,
    ⟨.ry, [.on .u [0] [.same 0, .flat, .flat]]⟩,
    ⟨.ry, [.on .sx [0], .on .rz [0] [.same 0], .on .sxdg [0]]⟩,
    ⟨.rz, [.on .p [0] [.same 0]]⟩,
    ⟨.rz, [.on .u [0] [.flat, .flat, .same 0]]⟩,
    ⟨.rz, [.on .prx [0] [.half, .flat], .on .prx [0] [.half, .halved 0]]⟩,
    ⟨.rz, [.on .h [0], .on .rx [0] [.same 0], .on .h [0]]⟩,
    ⟨.p, [.on .rz [0] [.same 0]]⟩,
    ⟨.p, [.on .u [0] [.flat, .flat, .same 0]]⟩,
    ⟨.u, [.on .rz [0] [.same 2], .on .ry [0] [.same 0], .on .rz [0] [.same 1]]⟩,
    ⟨.prx, [.on .rz [0] [.negated 1], .on .rx [0] [.same 0], .on .rz [0] [.same 1]]⟩,
    ⟨.prx, [.on .u [0] [.same 0, .affine 1 ⟨1, 1⟩ ⟨-1, 2⟩, .affine 1 ⟨-1, 1⟩ ⟨1, 2⟩]]⟩,
    -- Two qubit gates.
    ⟨.cx, [.on .h [1], .on .cz [0, 1], .on .h [1]]⟩,
    ⟨.cx, [.on .ry [1] [.negQuarter], .on .cz [0, 1], .on .ry [1] [.quarter]]⟩,
    ⟨.cz, [.on .h [1], .on .cx [0, 1], .on .h [1]]⟩,
    ⟨.cy, [.on .sdg [1], .on .cx [0, 1], .on .s [1]]⟩,
    ⟨.swap, [.on .cx [0, 1], .on .cx [1, 0], .on .cx [0, 1]]⟩,
    ⟨.cp, [.on .p [0] [.halved 0], .on .cx [0, 1], .on .p [1] [.negHalved 0], .on .cx [0, 1],
        .on .p [1] [.halved 0]]⟩,
    ⟨.crz, [.on .rz [1] [.halved 0], .on .cx [0, 1], .on .rz [1] [.negHalved 0], .on .cx [0, 1]]⟩,
    ⟨.rzz, [.on .cx [0, 1], .on .rz [1] [.same 0], .on .cx [0, 1]]⟩,
    -- Three qubit gates.
    ⟨.ccx, [.on .h [2], .on .cx [1, 2], .on .tdg [2], .on .cx [0, 2], .on .t [2], .on .cx [1, 2],
        .on .tdg [2], .on .cx [0, 2], .on .t [1], .on .t [2], .on .h [2], .on .cx [0, 1],
        .on .t [0], .on .tdg [1], .on .cx [0, 1]]⟩,
    ⟨.cswap, [.on .cx [2, 1], .on .ccx [0, 1, 2], .on .cx [2, 1]]⟩ ]

end QuantumCompiler.Decomposition
