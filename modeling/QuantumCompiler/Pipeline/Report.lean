import QuantumCompiler.Circuit.Layers
import QuantumCompiler.Pipeline.Stage

/-!
# Reports on compilations
-/

namespace QuantumCompiler

/-- What one stage did to the circuit. -/
structure Snapshot where
  /-- The stage. -/
  stage : Stage
  /-- Number of layers before it. -/
  depthBefore : Nat
  /-- Number of layers after it. -/
  depthAfter : Nat
  /-- Number of operations before it. -/
  gatesBefore : Nat
  /-- Number of operations after it. -/
  gatesAfter : Nat
  deriving Repr, DecidableEq

/-- The snapshot of a stage from the circuits before and after it. -/
def Snapshot.of {α : Type} (stage : Stage) (before after : Circuit α) : Snapshot :=
  ⟨stage, before.depth, after.depth, before.gateCount, after.gateCount⟩

/-- Counts on a whole compilation. -/
structure Stats where
  /-- Number of layers of the given circuit. -/
  depthBefore : Nat
  /-- Number of layers of the compiled circuit; zero if there is none. -/
  depthAfter : Nat
  /-- Number of operations of the given circuit. -/
  gatesBefore : Nat
  /-- Number of operations of the compiled circuit; zero if there is none. -/
  gatesAfter : Nat
  /-- Number of passes of the optimiser. -/
  passes : Nat
  /-- Number of swaps put in. -/
  swaps : Nat
  deriving Repr, DecidableEq

/-- What is told about one compilation. -/
structure Report (α : Type) where
  /-- Name of the device. -/
  device : String
  /-- The completed stages in order. -/
  stages : List Snapshot
  /-- The stage reached at the end. -/
  final : Stage
  /-- The stage that failed. -/
  failedAt : Option Stage
  /-- The wording of the failure, or nothing. -/
  failure : String
  /-- Number of shuttles put in. -/
  shuttles : Nat
  /-- Estimated success probability; zero if it was not estimated. -/
  esp : α
  /-- Counts. -/
  stats : Stats
  deriving Repr

namespace Report

variable {α : Type}

/-- Whether the compilation succeeded. -/
def succeeded (r : Report α) : Bool := r.final == .done

end Report

/-- What can be observed of a compilation. -/
inductive Event (α : Type) where
  /-- A stage was completed. -/
  | stageCompleted (device : String) (snapshot : Snapshot)
  /-- The compilation ended. -/
  | finished (report : Report α)

/-- Everything that can be observed of a compilation, in order. -/
def Report.events {α : Type} (r : Report α) : List (Event α) :=
  r.stages.map (.stageCompleted r.device) ++ [.finished r]

/-- A line on an event. -/
def Event.text {α : Type} : Event α → String
  | stageCompleted device snapshot => s!"{device}:{snapshot.stage.name}"
  | finished report => s!"{report.device}:finished:{report.final.name}"

end QuantumCompiler
