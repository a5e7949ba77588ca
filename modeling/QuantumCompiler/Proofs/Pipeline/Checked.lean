import QuantumCompiler.Device.Preset
import QuantumCompiler.Proofs.Circuit.Json
import QuantumCompiler.Proofs.Decomposition.Checked
import QuantumCompiler.Proofs.Device.Descriptor
import QuantumCompiler.Proofs.Executable.Checked
import QuantumCompiler.Proofs.Layout.Checked.Choice
import QuantumCompiler.Proofs.Peephole.Checked.Sweep
import QuantumCompiler.Proofs.Pipeline.Meaning
import QuantumCompiler.Proofs.Success.Checked

/-!
# Compilation with every access checked

`Checked.compile` is a compilation of checked stages.  It gives no result if
anything is missing on the way: an entry of a table, a place, a path, a partner
on a wire, a rule, a zone of qubits, or the consent of a circuit to an
operation.

* `run_eq` goes through the stages.  Each of them leaves a well-formed circuit
  to the next, and layouts are consistent, also after they are frozen.
* `run_reported` lists the failures that are left: no place, an operation that
  is too wide to be routed, a kind without a rule, and the final check.
* `Device.Obtained` and `Circuit.Obtained` are the ways to a device and a
  circuit.  They lead to surveyed devices and well-formed circuits only, and so
  every compilation comes to its end (`compile_eq_some`).
-/

namespace QuantumCompiler

namespace Checked

variable {α : Type}

/-- The snapshot of a stage. -/
def snapshot (stage : Stage) (before after : Circuit α) : Option Snapshot := do
  let depthBefore ← depth before
  let depthAfter ← depth after
  some ⟨stage, depthBefore, depthAfter, before.gateCount, after.gateCount⟩

variable [RealArith α]

/-- Runs the stages one after the other.  Routing is given the frozen layout. -/
def run (p : Pipeline α) (c : Circuit α) :
    Option (Progress × Except CompileError (Circuit α)) := do
  let unrolled ← unroll c
  match ← choose p.budget unrolled p.device with
  | .error e => some ({}, .error (.layout e))
  | .ok initial =>
    let placed ← snapshot .layoutAssigned c unrolled
    let s : Progress := { initial := some initial.freeze, stages := [placed] }
    match ← route unrolled p.device initial.freeze with
    | .error e => some (s, .error (.route e))
    | .ok routed =>
      let moved ← snapshot .routed unrolled routed.circuit
      let s : Progress :=
        { s with
          final := some routed.layout.freeze
          swaps := routed.swaps
          shuttles := routed.shuttles
          stages := s.stages ++ [moved] }
      match ← toNative p.device.natives routed.circuit with
      | .error e => some (s, .error (.expansion e))
      | .ok native =>
        let expanded ← snapshot .expanded routed.circuit native
        let out ← optimise p.device.natives p.optimisation native
        let optimised ← snapshot .optimised native out.1
        let s : Progress :=
          { s with passes := out.2, stages := s.stages ++ [expanded, optimised] }
        match ← violation out.1 p.device with
        | some e => some (s, .error (.verification e))
        | none =>
          let verified ← snapshot .verified out.1 out.1
          some ({ s with stages := s.stages ++ [verified] }, .ok out.1)

/-- The number of layers of a compiled circuit, or zero if there is none. -/
def compiledDepth : Except CompileError (Circuit α) → Option Nat
  | .ok out => depth out
  | .error _ => some 0

/-- The success probability of a compiled circuit, if it is to be estimated. -/
def compiledEstimate (p : Pipeline α) :
    Except CompileError (Circuit α) → Option (Option (Success.Estimate α))
  | .ok out =>
    match p.estimation with
    | some config => (estimate p.device config out).map some
    | none => some none
  | .error _ => some none

/-- Compiles a circuit. -/
def compile (p : Pipeline α) (c : Circuit α) : Option (Compilation α) := do
  let depthBefore ← depth c
  let done ← run p c
  let depthAfter ← compiledDepth done.2
  let esp ← compiledEstimate p done.2
  let error := match done.2 with
    | .error e => some e
    | .ok _ => none
  some
    { circuit := done.2
      initial := done.1.initial
      final := done.1.final
      esp
      report :=
        { device := p.device.name
          stages := done.1.stages
          final := if error.isSome then .failed else .done
          failedAt := error.map CompileError.stage
          failure := (error.map CompileError.reason).getD ""
          shuttles := done.1.shuttles
          esp := (esp.map (·.total)).getD RealArith.zero
          stats :=
            { depthBefore
              depthAfter
              gatesBefore := c.gateCount
              gatesAfter := (done.2.toOption.map Circuit.gateCount).getD 0
              passes := done.1.passes
              swaps := done.1.swaps } } }

/-! ## The stages -/

omit [RealArith α] in
theorem snapshot_eq {before after : Circuit α} (hbefore : before.WellFormed)
    (hafter : after.WellFormed) (stage : Stage) :
    snapshot stage before after = some (Snapshot.of stage before after) := by
  rw [snapshot, depth_eq hbefore, depth_eq hafter]
  rfl

/-- A frozen layout is copied before it is changed. -/
theorem route_freeze_eq {c : Circuit α} {d : Device α} {l : Layout} (hc : c.WellFormed)
    (hl : l.Consistent) : route c d l.freeze = some (Route.route c d l) :=
  route_eq hc (hl.congr rfl rfl)

variable {p : Pipeline α} {c : Circuit α}

theorem run_eq (hc : c.WellFormed) : run p c = some (p.run c) := by
  have hu : (Decomposition.unroll c).WellFormed := Decomposition.unroll_wellFormed hc
  rw [run, Pipeline.run, unroll_eq hc]
  simp only [Option.bind_eq_bind, Option.bind_some, choose_eq hu]
  cases hchoose : Layout.choose p.budget (Decomposition.unroll c) p.device with
  | error e => rfl
  | ok initial =>
    have hl := (Layout.settles_of_choose hu hchoose).consistent
    simp only [snapshot_eq hc hu, Option.bind_some, route_freeze_eq hu hl]
    cases hroute : Route.route (Decomposition.unroll c) p.device initial with
    | error e => rfl
    | ok routed =>
      have hrouted := Route.wellFormed_of_route hroute
      simp only [snapshot_eq hu hrouted, Option.bind_some, toNative_eq hrouted]
      cases hnative : Decomposition.toNative p.device.natives routed.circuit with
      | error e => rfl
      | ok native =>
        have hn := Decomposition.toNative_wellFormed hrouted hnative
        have ho := Peephole.optimise_wellFormed hn p.device.natives p.optimisation
        simp only [snapshot_eq hrouted hn, Option.bind_some, optimise_eq _ _ hn,
          snapshot_eq hn ho, violation_eq ho, snapshot_eq ho ho]
        cases Executable.violation? (Peephole.optimise p.device.natives p.optimisation native).1
          p.device <;> rfl

theorem wellFormed_of_run {out : Circuit α} (h : (p.run c).2 = .ok out) : out.WellFormed := by
  obtain ⟨initial, routed, native, -, hroute, hnative, rfl, -⟩ := Pipeline.run_eq_ok h
  have hn := Decomposition.toNative_wellFormed (Route.wellFormed_of_route hroute) hnative
  exact Peephole.optimise_wellFormed hn _ _

/-- Nothing is missing in the compilation of a well-formed circuit. -/
theorem compile_eq (hd : p.device.Surveyed) (hc : c.WellFormed) :
    compile p c = some (p.compile c) := by
  have hout := @wellFormed_of_run α _ p c
  rw [compile, depth_eq hc, run_eq hc, Pipeline.compile]
  generalize p.run c = done at hout ⊢
  obtain ⟨progress, _ | out⟩ := done
  · rfl
  · have ho : out.WellFormed := hout rfl
    simp only [Option.bind_eq_bind, Option.bind_some, compiledDepth, compiledEstimate,
      depth_eq ho]
    cases p.estimation with
    | none => rfl
    | some config =>
      simp only [estimate_eq hd config ho]
      rfl

/-- A circuit that names a qubit it does not have is not compiled. -/
example (p : Pipeline Float) : compile p ⟨2, 0, [.ofGate .cx [] [0, 5]]⟩ = none := rfl

end Checked

/-! ## The failures that are reported -/

namespace Pipeline

variable {α : Type} [RealArith α] {p : Pipeline α} {c : Circuit α}

/-- The failures that a compilation can report. -/
inductive Reported (p : Pipeline α) (c : Circuit α) : CompileError → Prop where
  | width (wide : p.device.numQubits < c.numQubits) :
      Reported p c (.layout (.width c.numQubits p.device.name p.device.numQubits))
  | packing (unplaceable : ¬ (Decomposition.unroll c).Placeable p.device.coupling) :
      Reported p c
        (.layout (.packing (InteractionGraph.ofCircuit (Decomposition.unroll c)).components))
  | tooWide (i : Nat) (physical : List Nat) (kind : String) (arity : Nat)
      (wide : ∃ op ∈ (Decomposition.unroll c).ops, op.isBarrier = false ∧ 3 ≤ op.arity) :
      Reported p c (.route (.operation i physical (.tooWide kind arity)))
  | underivable (i : Nat) (kind : Kind) :
      Reported p c (.expansion ⟨i, kind, .noRule kind.name p.device.natives.text⟩)
  | unexecutable (e : VerificationError) : Reported p c (.verification e)

/-- No other failure is ever met. -/
theorem run_reported (hc : c.WellFormed) {e : CompileError} (h : (p.run c).2 = .error e) :
    Reported p c e := by
  have hcourse := @run_course α _ p c hc
  rw [h] at hcourse
  cases hcourse with
  | unplaced hunplaceable =>
    split_ifs with hwidth
    · exact .width hwidth
    · exact .packing hunplaceable
  | tooWide _ hwide => exact .tooWide _ _ _ _ hwide
  | routed _ _ _ hroute hfinish =>
    cases hfinish with
    | @underivable e hnative =>
      obtain ⟨before, op, -, -, -, -, rfl⟩ :=
        Decomposition.toNative_eq_error (Route.wellFormed_of_route hroute) hnative
      exact .underivable before.length op.kind
    | @refused _ e _ _ => exact .unexecutable e

end Pipeline

/-! ## Where devices come from -/

/-- Devices are described, taken from the presets, or made from a coupling map,
and can be split into zones. -/
inductive Device.Obtained : Device Float → Prop where
  | described {descriptor : Descriptor Float} {d : Device Float}
      (h : Device.ofDescriptor descriptor = .ok d) : Obtained d
  | preset {name : String} {numQubits : Nat} {d : Device Float}
      (h : Preset.device name numQubits = .ok d) : Obtained d
  | uncalibrated (name : String) (coupling : CouplingMap) (natives : GateSet) :
      Obtained (Device.uncalibrated name coupling natives)
  | zoned {d : Device Float} (h : Obtained d) (zones : Nat) : Obtained (d.withZones zones)

/-- A descriptor lists a calibration for every qubit or for none. -/
theorem Device.surveyed_of_ofDescriptor {α : Type} [RealArith α] {descriptor : Descriptor α}
    {d : Device α} (h : Device.ofDescriptor descriptor = .ok d) : d.Surveyed :=
  (Device.ofDescriptor_eq_ok_iff.mp h).size_sites

theorem Device.Obtained.surveyed {d : Device Float} (h : d.Obtained) : d.Surveyed := by
  induction h with
  | described h => exact surveyed_of_ofDescriptor h
  | preset h =>
    rw [Preset.device] at h
    split at h
    · cases h
    · split at h
      · next hd =>
        cases h
        exact surveyed_of_ofDescriptor hd
      · cases h
  | uncalibrated name coupling natives => exact Array.size_replicate
  | zoned _ zones ih => exact ih

namespace Pipeline

/-- Every compilation comes to its end: whatever the device, the circuit and the
settings, nothing is missing on the way.  The failures that are reported are a
circuit without a place, an operation too wide to be routed, a kind without a
rule, and what the final check finds. -/
theorem compile_eq_some (p : Pipeline Float) (hd : p.device.Obtained) {c : Circuit Float}
    (hc : c.Obtained) :
    Checked.compile p c = some (p.compile c) ∧
      (∀ e, (p.compile c).circuit = .error e → Reported p c e) ∧
      ∀ e, (p.compile c).circuit = .error (.expansion e) →
        e.cause.message =
          s!"no decomposition of {e.kind.name} into native gates {p.device.natives.text}" := by
  have hwf : c.WellFormed := Circuit.obtained_iff.mp hc
  have hreported {e : CompileError} (h : (p.compile c).circuit = .error e) : Reported p c e :=
    run_reported hwf h
  refine ⟨Checked.compile_eq hd.surveyed hwf, fun e h => hreported h, fun e h => ?_⟩
  cases hreported h with
  | underivable i kind => rfl

/-- A chain in two zones, with an estimate of the success probability. -/
def forZones : Pipeline Float where
  device := Route.chainDevice ⟨[.gate .cz, .gate .shuttle, .gate .measure]⟩ 2
  estimation := some .default

/-- A gate on three qubits, a barrier, qubits that are moved, and a
measurement. -/
def zonedCircuit : Circuit Float :=
  ⟨4, 1, [.ofGate .ccx [] [3, 0, 1], { kind := .gate .barrier }, .ofGate .cx [] [0, 3],
    .measure 3 0]⟩

theorem compile_zonedCircuit :
    forZones.device.Obtained ∧ zonedCircuit.Obtained ∧
      Checked.compile forZones zonedCircuit = some (forZones.compile zonedCircuit) ∧
      ∀ e, (forZones.compile zonedCircuit).circuit = .error e →
      Reported forZones zonedCircuit e := by
  have hd : forZones.device.Obtained := .zoned (.uncalibrated "chain" Route.chain _) 2
  have hc : zonedCircuit.Obtained := by
    refine Circuit.obtained_iff.mpr ?_
    unfold Circuit.WellFormed zonedCircuit
    decide
  obtain ⟨hsome, hreported, -⟩ := compile_eq_some forZones hd hc
  exact ⟨hd, hc, hsome, hreported⟩

end Pipeline

end QuantumCompiler
