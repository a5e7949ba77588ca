import QuantumCompiler.Numeric.Binary64
import QuantumCompiler.Validation

/-!
# Values in place of missing calibration data

Times are in seconds.
-/

namespace QuantumCompiler.Success

/-- What is assumed where a device is not calibrated. -/
structure Config (α : Type) where
  /-- Fidelity of an operation on one qubit. -/
  singleQubitFidelity : α
  /-- Fidelity of an operation on two or more qubits. -/
  multiQubitFidelity : α
  /-- Duration of an operation on one qubit. -/
  singleQubitDuration : α
  /-- Duration of an operation on two or more qubits. -/
  multiQubitDuration : α
  /-- Duration of a measurement or reset. -/
  measureDuration : α
  /-- Relaxation time of a qubit. -/
  t1 : α
  /-- Dephasing time of a qubit. -/
  t2 : α
  /-- Probability of a wrong measurement result. -/
  readoutError : α
  deriving Repr

namespace Config

/-- The usual values. -/
def default : Config Float :=
  { singleQubitFidelity := 0.999
    multiQubitFidelity := 0.99
    singleQubitDuration := 50e-9
    multiQubitDuration := 300e-9
    measureDuration := 1e-6
    t1 := 100e-6
    t2 := 80e-6
    readoutError := 0.02 }

variable {α : Type} [RealArith α]

/-- The rules that the values break, under the path of the record. -/
def violations (path : String) (c : Config α) : List Violation :=
  Violation.check path "SingleQubitFidelity"
    [Violation.positive c.singleQubitFidelity, Violation.atMostOne c.singleQubitFidelity] ++
  Violation.check path "MultiQubitFidelity"
    [Violation.positive c.multiQubitFidelity, Violation.atMostOne c.multiQubitFidelity] ++
  Violation.check path "SingleQubitDuration" [Violation.nonnegative c.singleQubitDuration] ++
  Violation.check path "MultiQubitDuration" [Violation.nonnegative c.multiQubitDuration] ++
  Violation.check path "MeasureDuration" [Violation.nonnegative c.measureDuration] ++
  Violation.check path "T1" [Violation.positive c.t1] ++
  Violation.check path "T2" [Violation.positive c.t2] ++
  Violation.check path "ReadoutError" [Violation.nonnegative c.readoutError,
    Violation.belowOne c.readoutError]

/-- The wording of broken rules, if there are any. -/
def invalid? (c : Config α) : Option String :=
  match c.violations "Config" with
  | [] => none
  | vs => some ("invalid esp configuration: " ++ Violation.messages vs)

end Config

end QuantumCompiler.Success
