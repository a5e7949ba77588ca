import QuantumCompiler.Device.Preset
import QuantumCompiler.Proofs.Device.Descriptor
import QuantumCompiler.Proofs.Device.Topology

/-!
# Presets

A preset gives a device at every size.  This module goes through what a
descriptor is checked for and shows that the presets pass.

* `Preset.Sound` is what the check asks of a preset at any size.  All presets are
  sound (`sound_of_mem_all`), so each of them gives a device whose coupling map is
  that of its topology (`exists_device`).
* `Topology.coupling_standard` puts the distances of the standard topologies and
  the presets together.
-/

namespace QuantumCompiler

/-! ## Presets -/

namespace Preset

/-- What the check of a device asks of a preset, whatever its size. -/
structure Sound (p : Preset) : Prop where
  size_pos : 1 ≤ p.size
  natives_ne_nil : p.natives ≠ []
  natives_named : ∀ kind ∈ p.natives, kind ≠ ""
  site : ∀ s ∈ p.site, s.Valid
  operations : ∀ c ∈ p.operations, c.Valid
  calibrated : ∀ device, Device.calibrationError? device [] p.operations = none
  topology_size : ∀ n, (p.topology n).size = n

theorem ideal_natives : idealKinds ≠ [] ∧ ∀ kind ∈ idealKinds, kind ≠ "" := by
  have hname (g : Gate) : g.name ≠ "" := by cases g <;> decide
  have hmem {kind : String} : kind ∈ Gate.sortedNames ↔ ∃ g : Gate, g.name = kind := by
    rw [Gate.sortedNames, List.mem_mergeSort, List.mem_map]
    exact exists_congr fun g => and_iff_right (Gate.mem_all g)
  constructor
  · have hx : "x" ∈ idealKinds := List.mem_filter.mpr ⟨hmem.mpr ⟨.x, rfl⟩, rfl⟩
    exact List.ne_nil_of_mem hx
  · intro kind hkind
    obtain ⟨g, rfl⟩ := hmem.mp (List.mem_filter.mp hkind).1
    exact hname g

theorem sound_of_mem_all {p : Preset} (hp : p ∈ all) : p.Sound := by
  have hsite : ∀ p ∈ all, ∀ s ∈ p.site, (s.violations "").isEmpty = true := by decide +kernel
  have hoperations : ∀ p ∈ all, ∀ c ∈ p.operations, (c.violations "").isEmpty = true := by
    decide +kernel
  have hnatives : p.natives ≠ [] ∧ ∀ kind ∈ p.natives, kind ≠ "" := by
    simp only [all, List.mem_cons, List.not_mem_nil, or_false] at hp
    rcases hp with rfl | rfl | rfl | rfl | rfl
    · decide
    · decide
    · exact ideal_natives
    · decide
    · decide
  have hsize : ∀ p ∈ all, 1 ≤ p.size := by decide
  refine ⟨hsize p hp, hnatives.1, hnatives.2,
    fun s hs => Site.violations_eq_nil_iff.mp (List.isEmpty_iff.mp (hsite p hp s hs)),
    fun c hc =>
      Calibration.violations_eq_nil_iff.mp (List.isEmpty_iff.mp (hoperations p hp c hc)),
    fun device => ?_, fun n => ?_⟩
  all_goals
    simp only [all, List.mem_cons, List.not_mem_nil, or_false] at hp
    rcases hp with rfl | rfl | rfl | rfl | rfl <;> rfl

/-- Every qubit has the calibration of the preset, or there is none. -/
theorem descriptor_sites (p : Preset) (n : Nat) :
    (p.descriptor n).sites = [] ∨
      ∃ s ∈ p.site, (p.descriptor n).sites = List.replicate (p.descriptor n).numQubits s := by
  simp only [descriptor]
  cases p.site with
  | none => exact .inl rfl
  | some s => exact .inr ⟨s, rfl, rfl⟩

theorem Sound.valid {p : Preset} (h : p.Sound) (n : Nat) : (p.descriptor n).Valid where
  name := by simp [descriptor]
  numQubits := by
    have hsize := h.size_pos
    simp only [descriptor, beq_iff_eq]
    split_ifs <;> omega
  pairs e he := by
    obtain ⟨_, -, rfl⟩ := List.mem_map.mp he
    rfl
  natives_ne_nil := h.natives_ne_nil
  natives_named := h.natives_named
  sites s hs := by
    rcases p.descriptor_sites n with hnone | ⟨site, hsite, hall⟩
    · rw [hnone] at hs
      cases hs
    · rw [hall] at hs
      rw [List.eq_of_mem_replicate hs]
      exact h.site site hsite
  operations := h.operations

/-- A known name gives a device of the size that is asked for, and its coupling map
is that of the topology of the preset. -/
theorem exists_device {name : String} (hname : name ∈ names) {n : Nat} (hn : 1 ≤ n) :
    ∃ p d, find? name = some p ∧ device name n = .ok d ∧ (p.topology n).size = n ∧
      (p.topology n).coupling = .ok d.coupling := by
  obtain ⟨p, hfind⟩ : ∃ p, find? name = some p := by
    obtain ⟨p, hp, hpname⟩ := List.mem_map.mp hname
    exact Option.isSome_iff_exists.mp (List.find?_isSome.mpr ⟨p, hp, by simpa using hpname⟩)
  have hsound := sound_of_mem_all (List.mem_of_find?_eq_some hfind)
  have hsize : (p.descriptor n).numQubits = n := if_neg (by simpa using Nat.ne_of_gt hn)
  have hedges : Device.edgesOf (p.descriptor n).couplingMap =
      (p.topology (p.descriptor n).numQubits).edges := Device.edgesOf_pairs _
  obtain ⟨m, hm⟩ := (p.topology n).exists_coupling
  have hbuilt : CouplingMap.ofEdges (p.descriptor n).numQubits
      (Device.edgesOf (p.descriptor n).couplingMap) = .ok m := by
    rw [hedges, hsize, ← hm, Topology.coupling, hsound.topology_size]
  have hsites : (p.descriptor n).sites = [] ∨
      (p.descriptor n).sites.length = (p.descriptor n).numQubits := by
    rcases p.descriptor_sites n with hnone | ⟨_, -, hall⟩
    · exact .inl hnone
    · exact .inr (by rw [hall, List.length_replicate])
  obtain ⟨d, hd, rfl⟩ :=
    Device.exists_ofDescriptor (hsound.valid n) hsites (Nat.min_le_right _ _) hbuilt
    (hsound.calibrated _)
  refine ⟨p, d, hfind, ?_, hsound.topology_size n, hm⟩
  rw [device, hfind]
  simp only [hd]

end Preset

/-! ## The standard topologies and presets -/

/-- Every standard topology has a coupling map whose distances are given by its
formula.  Every preset gives a device of every size, all of whose qubits are
connected. -/
theorem Topology.coupling_standard :
    (∀ t : Topology, ∃ m, t.coupling = .ok m ∧ m.size = t.size ∧
        ∀ a < t.size, ∀ b < t.size, m.distance? a b = some (t.metric a b)) ∧
      ∀ name ∈ Preset.names, ∀ n ≥ 1, ∃ d, Preset.device name n = .ok d ∧ d.numQubits = n ∧
        d.coupling.components = [List.range n] := by
  constructor
  · intro t
    obtain ⟨m, hm⟩ := t.exists_coupling
    exact ⟨m, hm, size_of_coupling hm, fun a ha b hb => distance?_of_coupling hm ha hb⟩
  · intro name hname n hn
    obtain ⟨p, d, -, hd, hsize, hcoupling⟩ := Preset.exists_device hname hn
    have hcomponents := components_of_coupling hcoupling (by omega)
    rw [hsize] at hcomponents
    exact ⟨d, hd, (size_of_coupling hcoupling).trans hsize, hcomponents⟩

/-- A lattice whose rows end between two qubits, a ring that is left over its end,
and a device with a single qubit. -/
theorem Topology.coupling_standard_small :
    (∃ m, (grid 2 3).coupling = .ok m ∧ m.distance? 2 3 = some 3) ∧
      (∃ m, (ring 5).coupling = .ok m ∧ m.distance? 4 1 = some 2) ∧
      ∃ d, Preset.device "neutral-atom" 1 = .ok d ∧ d.coupling.components = [[0]] := by
  obtain ⟨hmetric, hpresets⟩ := coupling_standard
  obtain ⟨m, hm, -, hgrid⟩ := hmetric (grid 2 3)
  obtain ⟨m', hm', -, hring⟩ := hmetric (ring 5)
  obtain ⟨d, hd, -, hcomponents⟩ := hpresets "neutral-atom" (by decide) 1 (Nat.le_refl 1)
  exact ⟨⟨m, hm, hgrid 2 (by decide) 3 (by decide)⟩, ⟨m', hm', hring 4 (by decide) 1 (by decide)⟩,
    d, hd, hcomponents⟩

end QuantumCompiler
