import QuantumCompiler.Decomposition.Expand
import QuantumCompiler.Executable
import QuantumCompiler.Layout.Assign
import QuantumCompiler.Peephole.Optimise
import QuantumCompiler.Pipeline.Report
import QuantumCompiler.Route
import QuantumCompiler.Success.Estimate

/-!
# Compilation

A pipeline compiles circuits for one device.  The stages are: operations on many qubits are
unrolled and the qubits are placed, the circuit is routed, expanded into native operations,
optimised, and checked.  The first failure ends the compilation.  What was found before the
failure is part of the result.
-/

namespace QuantumCompiler

/-- How circuits are compiled. -/
structure Pipeline (α : Type) where
  /-- The target. -/
  device : Device α
  /-- Number of nodes that the exact search for a layout may visit. -/
  budget : Nat := Layout.defaultBudget
  /-- How much is optimised. -/
  optimisation : Peephole.Config := default
  /-- Values for missing calibration data, if the success probability is to be estimated. -/
  estimation : Option (Success.Config α)

/-- The wording for a level of optimisation that does not exist. -/
def invalidLevel (level : Nat) : String := s!"invalid optimisation level {level}"

/-- Why a compilation failed. -/
inductive CompileError where
  /-- No layout was found. -/
  | layout (error : LayoutError)
  /-- The circuit could not be routed. -/
  | route (error : RouteError)
  /-- An operation could not be expressed by native ones. -/
  | expansion (error : Decomposition.ExpansionError)
  /-- The result cannot be executed. -/
  | verification (error : VerificationError)
  deriving DecidableEq

namespace CompileError

/-- The stage that failed. -/
def stage : CompileError → Stage
  | layout _ => .layoutAssigned
  | route _ => .routed
  | expansion _ => .expanded
  | verification _ => .verified

/-- The wording of the failure in its stage. -/
def reason : CompileError → String
  | layout e => e.message
  | route e => e.message
  | expansion e => e.message
  | verification e => e.message

/-- The wording of the failure. -/
def message (e : CompileError) : String := s!"{e.stage.name} stage failed: {e.reason}"

end CompileError

/-- What has been found in the course of a compilation. -/
structure Progress where
  /-- Layout at the start of the compiled circuit. -/
  initial : Option Layout := none
  /-- Layout at its end. -/
  final : Option Layout := none
  /-- Number of swaps put in. -/
  swaps : Nat := 0
  /-- Number of shuttles put in. -/
  shuttles : Nat := 0
  /-- Number of passes of the optimiser. -/
  passes : Nat := 0
  /-- The completed stages. -/
  stages : List Snapshot := []

/-- The outcome of a compilation. -/
structure Compilation (α : Type) where
  /-- The compiled circuit, or the failure. -/
  circuit : Except CompileError (Circuit α)
  /-- Layout at the start of the compiled circuit. -/
  initial : Option Layout
  /-- Layout at its end. -/
  final : Option Layout
  /-- Estimated success probability. -/
  esp : Option (Success.Estimate α)
  /-- The report. -/
  report : Report α

namespace Pipeline

variable {α : Type} [RealArith α]

/-- Runs the stages one after the other. -/
def run (p : Pipeline α) (c : Circuit α) : Progress × Except CompileError (Circuit α) :=
  let unrolled := Decomposition.unroll c
  match Layout.choose p.budget unrolled p.device with
  | .error e => ({}, .error (.layout e))
  | .ok initial =>
    let s : Progress :=
      { initial := some initial.freeze, stages := [Snapshot.of .layoutAssigned c unrolled] }
    match Route.route unrolled p.device initial with
    | .error e => (s, .error (.route e))
    | .ok routed =>
      let s : Progress :=
        { s with
          final := some routed.layout.freeze
          swaps := routed.swaps
          shuttles := routed.shuttles
          stages := s.stages ++ [Snapshot.of .routed unrolled routed.circuit] }
      match Decomposition.toNative p.device.natives routed.circuit with
      | .error e => (s, .error (.expansion e))
      | .ok native =>
        let (optimised, passes) := Peephole.optimise p.device.natives p.optimisation native
        let s : Progress :=
          { s with
            passes
            stages := s.stages ++ [Snapshot.of .expanded routed.circuit native,
              Snapshot.of .optimised native optimised] }
        match Executable.violation? optimised p.device with
        | some e => (s, .error (.verification e))
        | none =>
          ({ s with stages := s.stages ++ [Snapshot.of .verified optimised optimised] },
            .ok optimised)

/-- Compiles a circuit. -/
def compile (p : Pipeline α) (c : Circuit α) : Compilation α :=
  let (progress, circuit) := p.run c
  let compiled := circuit.toOption
  let esp := match compiled, p.estimation with
    | some compiled, some config => some (Success.estimate p.device config compiled)
    | _, _ => none
  let error := match circuit with
    | .error e => some e
    | .ok _ => none
  { circuit
    initial := progress.initial
    final := progress.final
    esp
    report :=
      { device := p.device.name
        stages := progress.stages
        final := if error.isSome then .failed else .done
        failedAt := error.map CompileError.stage
        failure := (error.map CompileError.reason).getD ""
        shuttles := progress.shuttles
        esp := (esp.map (·.total)).getD RealArith.zero
        stats :=
          { depthBefore := c.depth
            depthAfter := (compiled.map Circuit.depth).getD 0
            gatesBefore := c.gateCount
            gatesAfter := (compiled.map Circuit.gateCount).getD 0
            passes := progress.passes
            swaps := progress.swaps } } }

/-- Compiles several circuits, each for itself.  If the batch is cancelled beforehand, none of
them is. -/
def compileAll (p : Pipeline α) (cancelled : Bool) (circuits : List (Circuit α)) :
    List (Option (Compilation α)) :=
  circuits.map fun c => if cancelled then none else some (p.compile c)

end Pipeline

/-- The wording for a cancelled batch. -/
def cancelledMessage : String := "context canceled"

end QuantumCompiler
