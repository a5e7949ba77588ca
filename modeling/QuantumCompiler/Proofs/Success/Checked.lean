import QuantumCompiler.Proofs.Circuit.Checked
import QuantumCompiler.Success.Estimate

/-!
# The success probability with every access checked

An estimate reads the calibration of qubits of the device, and the operations of
a circuit by the indices that its layers hold.  The checked steps give no result
if a qubit of the device has no calibration or an operation does not exist.

A device is `Surveyed` if every qubit has a calibration, possibly one without
data.  On such a device nothing is missing for a well-formed circuit
(`estimate_eq`).
-/

namespace QuantumCompiler

/-- Every qubit of the device has a calibration. -/
def Device.Surveyed {β : Type} (d : Device β) : Prop := d.sites.size = d.numQubits

namespace Checked

open Success (measuredOr)

variable {α : Type} [RealArith α]

/-- The calibration of a qubit.  Nothing is known about qubits that the device
does not have. -/
def site (d : Device α) (q : Nat) : Option (Site α) :=
  if q < d.numQubits then d.sites[q]? else some Site.uncalibrated

/-- Probability of a right measurement result on each of some qubits. -/
def readout (d : Device α) (config : Success.Config α) (qubits : List Nat) : Option α :=
  qubits.foldlM (fun f q => (site d q).map fun s =>
    f * (RealArith.one - measuredOr s.readoutError config.readoutError)) RealArith.one

/-- Fidelity and duration of an operation. -/
def characterise (d : Device α) (config : Success.Config α) (op : Operation α) : Option (α × α) :=
  match d.calibration? op.kind with
  | some c => some (c.fidelity, c.duration)
  | none =>
    if op.isMeasure then (readout d config op.qubits).map fun f => (f, config.measureDuration)
    else if op.kind == .gate .reset then some (config.singleQubitFidelity, config.measureDuration)
    else if 2 ≤ op.arity then some (config.multiQubitFidelity, config.multiQubitDuration)
    else some (config.singleQubitFidelity, config.singleQubitDuration)

/-- The decay of an idle qubit over a time. -/
def decay (d : Device α) (config : Success.Config α) (duration : α) (q : Nat) : Option α :=
  (site d q).map fun s => RealArith.exp (-duration / measuredOr s.t1 config.t1) *
    RealArith.exp (-duration / measuredOr s.t2 config.t2)

/-- The success probability of the operations of one layer. -/
def layerProbability (d : Device α) (config : Success.Config α) (active : List Nat)
    (ops : List (Operation α)) : Option α := do
  let total ← ops.foldlM (fun total op => (characterise d config op).map fun x =>
    (total.1 * x.1, RealArith.max total.2 x.2)) (RealArith.one, RealArith.zero)
  (active.filter fun q => !ops.any (·.actsOn q)).foldlM
    (fun fidelity q => (decay d config total.2 q).map (fidelity * ·)) total.1

/-- The operations of each layer. -/
def layerOps (c : Circuit α) : Option (List (List (Operation α))) := do
  let found ← layers c
  found.mapM fun layer => layer.mapM (c.ops[·]?)

/-- The estimated success probability of a circuit on a device. -/
def estimate (d : Device α) (config : Success.Config α) (c : Circuit α) :
    Option (Success.Estimate α) := do
  let active ← activeQubits c
  let found ← layerOps c
  let probabilities ← found.mapM (layerProbability d config active)
  let cumulative := Success.runningProducts RealArith.one probabilities
  some ⟨probabilities, cumulative, cumulative.getLast?.getD RealArith.one⟩

section Surveyed

variable {d : Device α} (hd : d.Surveyed) (config : Success.Config α)

include hd

theorem site_eq (q : Nat) : site d q = some (d.site q) := by
  have hsize : d.sites.size = d.numQubits := hd
  rw [site, Device.site]
  split_ifs with hq
  · exact getElem?_eq_some_getD (hsize ▸ hq) _
  · simp [hsize, hq]

theorem characterise_eq (op : Operation α) :
    characterise d config op = some (Success.characterise d config op) := by
  have hread : readout d config op.qubits = some (op.qubits.foldl
      (fun f q => f * (RealArith.one - Success.readoutError d config q)) RealArith.one) := by
    refine foldlM_eq_of_forall (fun f q _ => ?_) _
    rw [site_eq hd]
    rfl
  rw [characterise, Success.characterise]
  cases d.calibration? op.kind with
  | some c => rfl
  | none =>
    dsimp only
    rw [hread]
    split_ifs <;> rfl

theorem decay_eq (duration : α) (q : Nat) :
    decay d config duration q = some (Success.decay d config duration q) := by
  rw [decay, site_eq hd]
  rfl

theorem layerProbability_eq (active : List Nat) (ops : List (Operation α)) :
    layerProbability d config active ops =
      some (Success.layerProbability d config active ops) := by
  rw [layerProbability,
    foldlM_eq_of_forall fun total op _ => by rw [characterise_eq hd, Option.map_some]]
  exact foldlM_eq_of_forall (fun fidelity q _ => by rw [decay_eq hd, Option.map_some]) _

end Surveyed

omit [RealArith α] in
theorem layerOps_eq {c : Circuit α} (hc : c.WellFormed) :
    layerOps c = some (Success.layerOps c) := by
  obtain ⟨hlayers, hindices⟩ := layers_eq hc
  rw [layerOps, hlayers]
  exact mapM_eq fun layer hlayer => mapM_getElem?_eq (hindices layer hlayer)

/-- Nothing is missing in the estimate of a well-formed circuit. -/
theorem estimate_eq {d : Device α} (hd : d.Surveyed) (config : Success.Config α) {c : Circuit α}
    (hc : c.WellFormed) : estimate d config c = some (Success.estimate d config c) := by
  rw [estimate, activeQubits_eq, layerOps_eq hc]
  simp only [Option.bind_eq_bind, Option.bind_some,
    mapM_eq fun ops _ => layerProbability_eq hd config c.activeQubits.elements ops]
  rfl

end Checked

end QuantumCompiler
