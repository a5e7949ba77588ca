/-!
# Stages of a compilation
-/

namespace QuantumCompiler

/-- How far a compilation has come. -/
inductive Stage where
  /-- The circuit was accepted. -/
  | received
  /-- Logical qubits are placed on physical ones. -/
  | layoutAssigned
  /-- Every operation on two qubits acts on coupled qubits. -/
  | routed
  /-- Every operation is native. -/
  | expanded
  /-- Local simplifications are made. -/
  | optimised
  /-- The circuit was checked against the device. -/
  | verified
  /-- The compilation succeeded. -/
  | done
  /-- The compilation was stopped by an error. -/
  | failed
  /-- A number that stands for no stage. -/
  | unknown (number : Nat)
  deriving Repr, DecidableEq

namespace Stage

/-- Name of a stage in texts. -/
def name : Stage → String
  | received => "received"
  | layoutAssigned => "layout_assigned"
  | routed => "routed"
  | expanded => "translated"
  | optimised => "optimised"
  | verified => "verified"
  | done => "done"
  | failed => "failed"
  | unknown number => s!"stage({number})"

/-- The stages in order. -/
def all : List Stage :=
  [received, layoutAssigned, routed, expanded, optimised, verified, done, failed]

/-- The stage with a given number. -/
def ofNumber (number : Nat) : Stage := all.getD number (unknown number)

end Stage

end QuantumCompiler
