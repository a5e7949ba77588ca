import Mathlib.Data.List.Nodup
import QuantumCompiler.Device.Basic

/-!
# Accepted descriptors

A descriptor is checked field by field before a device is made of it.  This
module says once what it means that no check finds anything, so that no later
proof opens a check again.

* `Site.Valid`, `Calibration.Valid` and `Descriptor.Valid` list what the rules of
  the fields ask, and `Violation.check_eq_nil_iff` is the check of one field.
* `calibrationError?_eq_none_iff` is about the calibrations of a descriptor taken
  together: no kind is calibrated twice, and standard kinds have their own numbers
  of qubits.
* `Device.Realises` relates a device to its descriptor, and
  `ofDescriptor_eq_ok_iff` says that it is what `Device.ofDescriptor` returns.
-/

namespace QuantumCompiler

theorem Violation.check_eq_nil_iff {record field : String} {rules : List (String × Bool)} :
    check record field rules = [] ↔ ∀ rule ∈ rules, rule.2 = true := by
  rw [check]
  split
  · next rule _ hfind =>
    have hbroken := List.find?_some hfind
    refine iff_of_false (List.cons_ne_nil _ _) fun h => ?_
    rw [h _ (List.mem_of_find?_eq_some hfind)] at hbroken
    cases hbroken
  · next hfind => simpa using hfind

/-! ## Fields -/

section Fields

variable {α : Type} [RealArith α]

/-- What the rules ask of the calibration of a site. -/
structure Site.Valid (s : Site α) : Prop where
  t1 : RealArith.le RealArith.zero s.t1 = true
  t2 : RealArith.le RealArith.zero s.t2 = true
  readoutError_nonneg : RealArith.le RealArith.zero s.readoutError = true
  readoutError_lt : RealArith.lt s.readoutError RealArith.one = true

theorem Site.violations_eq_nil_iff {s : Site α} {path : String} :
    s.violations path = [] ↔ s.Valid := by
  simp only [violations, List.append_eq_nil_iff, Violation.check_eq_nil_iff, List.forall_mem_cons,
    List.not_mem_nil, false_implies, implies_true, and_true]
  constructor
  · rintro ⟨⟨h1, h2⟩, h3, h4⟩
    exact ⟨h1, h2, h3, h4⟩
  · rintro ⟨h1, h2, h3, h4⟩
    exact ⟨⟨h1, h2⟩, h3, h4⟩

/-- What the rules ask of the calibration of a kind. -/
structure Calibration.Valid (c : Calibration α) : Prop where
  name : c.name ≠ ""
  duration : RealArith.le RealArith.zero c.duration = true
  fidelity_pos : RealArith.lt RealArith.zero c.fidelity = true
  fidelity_le : RealArith.le c.fidelity RealArith.one = true
  numQubits : 1 ≤ c.numQubits

theorem Calibration.violations_eq_nil_iff {c : Calibration α} {path : String} :
    c.violations path = [] ↔ c.Valid := by
  simp only [violations, List.append_eq_nil_iff, Violation.check_eq_nil_iff, List.forall_mem_cons,
    List.not_mem_nil, false_implies, implies_true, and_true, bne_iff_ne, decide_eq_true_eq]
  constructor
  · rintro ⟨⟨⟨h1, h2⟩, h3, h4⟩, h5⟩
    exact ⟨h1, h2, h3, h4, h5⟩
  · rintro ⟨h1, h2, h3, h4, h5⟩
    exact ⟨⟨⟨h1, h2⟩, h3, h4⟩, h5⟩

namespace Descriptor

/-- What the rules ask of the fields of a descriptor. -/
structure Valid (d : Descriptor α) : Prop where
  name : d.name ≠ ""
  numQubits : 1 ≤ d.numQubits
  pairs : ∀ e ∈ d.couplingMap, e.length = 2
  natives_ne_nil : d.nativeGates ≠ []
  natives_named : ∀ kind ∈ d.nativeGates, kind ≠ ""
  sites : ∀ s ∈ d.sites, s.Valid
  operations : ∀ c ∈ d.operations, c.Valid

/-- The items of a list are checked one by one, wherever they are in the list. -/
theorem itemViolations_eq_nil_iff {β : Type} {f : Nat → β → List Violation} {P : β → Prop}
    (hf : ∀ i x, f i x = [] ↔ P x) {items : List β} :
    itemViolations f items = [] ↔ ∀ x ∈ items, P x := by
  rw [itemViolations, List.flatten_eq_nil_iff, List.forall_mem_map]
  constructor
  · intro h x hx
    obtain ⟨i, hi, rfl⟩ := List.getElem_of_mem hx
    exact (hf i _).mp
      (h (_, i) (List.mk_mem_zipIdx_iff_getElem?.mpr (List.getElem?_eq_getElem hi)))
  · intro h x hx
    exact (hf x.2 x.1).mpr (h x.1 (List.fst_mem_of_mem_zipIdx hx))

theorem violations_eq_nil_iff {d : Descriptor α} : d.violations = [] ↔ d.Valid := by
  have hpairs (i : Nat) (e : List Nat) :
      Violation.check "Descriptor" s!"CouplingMap[{i}]" [("len", e.length == 2)] = [] ↔
      e.length = 2 := by
    simp [Violation.check_eq_nil_iff]
  have hnatives (i : Nat) (kind : String) :
      Violation.check "Descriptor" s!"NativeGates[{i}]" [("required", kind != "")] = [] ↔
      kind ≠ "" := by
    simp [Violation.check_eq_nil_iff]
  have hsites (i : Nat) (s : Site α) : s.violations s!"Descriptor.Sites[{i}]" = [] ↔ s.Valid :=
    Site.violations_eq_nil_iff
  have hoperations (i : Nat) (c : Calibration α) :
      c.violations s!"Descriptor.Operations[{i}]" = [] ↔ c.Valid :=
        Calibration.violations_eq_nil_iff
  rw [violations]
  simp only [List.append_eq_nil_iff, itemViolations_eq_nil_iff hpairs,
    itemViolations_eq_nil_iff hnatives, itemViolations_eq_nil_iff hsites,
    itemViolations_eq_nil_iff hoperations, Violation.check_eq_nil_iff,
    List.forall_mem_singleton, bne_iff_ne, decide_eq_true_eq, Bool.not_eq_true',
    List.isEmpty_eq_false_iff]
  constructor
  · rintro ⟨⟨⟨⟨⟨⟨h1, h2⟩, h3⟩, h4⟩, h5⟩, h6⟩, h7⟩
    exact ⟨h1, h2, h3, h4, h5, h6, h7⟩
  · rintro ⟨h1, h2, h3, h4, h5, h6, h7⟩
    exact ⟨⟨⟨⟨⟨⟨h1, h2⟩, h3⟩, h4⟩, h5⟩, h6⟩, h7⟩

end Descriptor

end Fields

namespace Device

/-! ## Calibrations -/

section Calibrations

variable {α : Type}

/-- A calibration fits its kind: a standard kind other than a barrier has its own
number of qubits. -/
def Fits (c : Calibration α) : Prop :=
  ((Kind.ofName c.name).gate?.map Gate.numQubits).getD 0 = 0 ∨
    ((Kind.ofName c.name).gate?.map Gate.numQubits).getD 0 = c.numQubits

/-- No calibration is refused exactly if each fits its kind and none repeats the
kind of another one or of one that was seen before. -/
theorem calibrationError?_eq_none_iff {device : String} {seen : List String}
    {operations : List (Calibration α)} :
    calibrationError? device seen operations = none ↔
      (∀ c ∈ operations, Fits c ∧ c.name ∉ seen) ∧ (operations.map (·.name)).Nodup := by
  induction operations generalizing seen with
  | nil => simp [calibrationError?]
  | cons c rest ih =>
    rw [calibrationError?, List.map_cons, List.nodup_cons, List.forall_mem_cons]
    dsimp only
    split_ifs with hseen hfits
    · have : c.name ∈ seen := by simpa using hseen
      simp [this]
    · have : ¬ Fits c := by simpa [Fits] using hfits
      simp [this]
    · have hc : Fits c := by
        simpa [Fits, or_iff_not_imp_left] using hfits
      have hnew : c.name ∉ seen := by simpa using hseen
      rw [ih]
      simp only [List.mem_cons, not_or, List.mem_map, not_exists, not_and]
      constructor
      · rintro ⟨hrest, hnodup⟩
        exact ⟨⟨⟨hc, hnew⟩, fun x hx => ⟨(hrest x hx).1, (hrest x hx).2.2⟩⟩,
          fun x hx => (hrest x hx).2.1, hnodup⟩
      · rintro ⟨⟨-, hrest⟩, hother, hnodup⟩
        exact ⟨fun x hx => ⟨(hrest x hx).1, hother x hx, (hrest x hx).2⟩, hnodup⟩

end Calibrations

/-! ## Devices -/

/-- Edges are read off the pairs that they are written as. -/
theorem edgesOf_pairs (edges : List Edge) : edgesOf (edges.map fun e => [e.1, e.2]) = edges := by
  rw [edgesOf, List.map_map]
  exact List.map_id'' (fun _ => rfl) edges

variable {α : Type} [RealArith α] {desc : Descriptor α} {d : Device α}

theorem descriptorError?_eq_none_iff :
    descriptorError? desc = none ↔
      desc.Valid ∧ (desc.sites = [] ∨ desc.sites.length = desc.numQubits) ∧
      desc.zones ≤ desc.numQubits := by
  rw [descriptorError?, ← Descriptor.violations_eq_nil_iff]
  split_ifs with hviolations hsites hzones
  · have : desc.violations ≠ [] := by simpa using hviolations
    simp [this]
  · have : ¬ (desc.sites = [] ∨ desc.sites.length = desc.numQubits) := by simpa using hsites
    simp [this]
  · simp [Nat.not_le.mpr hzones]
  · have hnone : desc.violations = [] := by simpa using hviolations
    have hcount : desc.sites = [] ∨ desc.sites.length = desc.numQubits := by
      simpa [or_iff_not_imp_left] using hsites
    simp [hnone, hcount, Nat.not_lt.mp hzones]

/-- A device is what a descriptor says. -/
structure Realises (desc : Descriptor α) (d : Device α) : Prop where
  valid : desc.Valid
  sites_length : desc.sites = [] ∨ desc.sites.length = desc.numQubits
  zones_le : desc.zones ≤ desc.numQubits
  coupling : CouplingMap.ofEdges desc.numQubits (edgesOf desc.couplingMap) = .ok d.coupling
  fits : ∀ c ∈ desc.operations, Fits c
  distinct : (desc.operations.map (·.name)).Nodup
  name : d.name = desc.name
  natives : d.natives = GateSet.ofNames desc.nativeGates
  sites : d.sites =
    if desc.sites.isEmpty then Array.replicate desc.numQubits Site.uncalibrated
    else desc.sites.toArray
  operations : d.operations = desc.operations
  zones : d.zones = max desc.zones 1

/-- A device is made of a descriptor exactly if it realises the descriptor. -/
theorem ofDescriptor_eq_ok_iff : ofDescriptor desc = .ok d ↔ Realises desc d := by
  constructor
  · intro h
    unfold ofDescriptor at h
    split at h
    · cases h
    · next hchecked =>
      obtain ⟨hvalid, hsites, hzones⟩ := descriptorError?_eq_none_iff.mp hchecked
      split at h
      · cases h
      · next hbuilt =>
        split at h
        · cases h
        · next hcalibrated =>
          obtain ⟨hfits, hdistinct⟩ := calibrationError?_eq_none_iff.mp hcalibrated
          cases h
          exact ⟨hvalid, hsites, hzones, hbuilt, fun c hc => (hfits c hc).1, hdistinct, rfl,
            rfl, rfl, rfl, rfl⟩
  · intro h
    have hchecked := descriptorError?_eq_none_iff.mpr ⟨h.valid, h.sites_length, h.zones_le⟩
    have hcalibrated : calibrationError? desc.name [] desc.operations = none :=
      calibrationError?_eq_none_iff.mpr ⟨fun c hc => ⟨h.fits c hc, List.not_mem_nil⟩, h.distinct⟩
    unfold ofDescriptor
    split
    · next hbad => rw [hchecked] at hbad; cases hbad
    · split
      · next hbad => rw [h.coupling] at hbad; cases hbad
      · next hbuilt =>
        rw [h.coupling] at hbuilt
        cases hbuilt
        split
        · next hbad => rw [hcalibrated] at hbad; cases hbad
        · obtain ⟨name, coupling, natives, sites, operations, zones, _, _⟩ := d
          obtain ⟨-, -, -, -, -, -, rfl, rfl, rfl, rfl, rfl⟩ := h
          rfl

/-- A valid descriptor whose edges make a coupling map and whose calibrations are
in order has a device. -/
theorem exists_ofDescriptor {m : CouplingMap} (hvalid : desc.Valid)
    (hsites : desc.sites = [] ∨ desc.sites.length = desc.numQubits)
    (hzones : desc.zones ≤ desc.numQubits)
    (hbuilt : CouplingMap.ofEdges desc.numQubits (edgesOf desc.couplingMap) = .ok m)
    (hcalibrated : calibrationError? desc.name [] desc.operations = none) :
    ∃ d, ofDescriptor desc = .ok d ∧ d.coupling = m := by
  obtain ⟨hfits, hdistinct⟩ := calibrationError?_eq_none_iff.mp hcalibrated
  have hsize := CouplingMap.size_of_ofEdges hbuilt
  exact ⟨_,
    (ofDescriptor_eq_ok_iff (d := ⟨_, m, _, _, _, max desc.zones 1, by omega, by omega⟩)).mpr
    ⟨hvalid, hsites, hzones, hbuilt, fun c hc => (hfits c hc).1, hdistinct, rfl, rfl, rfl, rfl,
      rfl⟩, rfl⟩

namespace Realises

variable (h : Realises desc d)

include h

theorem numQubits : d.numQubits = desc.numQubits := CouplingMap.size_of_ofEdges h.coupling

theorem numQubits_pos : 0 < d.numQubits := h.numQubits ▸ h.valid.numQubits

theorem size_sites : d.sites.size = d.numQubits := by
  rw [h.numQubits, h.sites]
  rcases h.sites_length with hnone | hall
  · simp [hnone]
  · split_ifs
    · simp
    · simpa using hall

/-- Sites without data are calibrated with zeros. -/
theorem forall_sites {P : Site α → Prop} (hblank : P Site.uncalibrated)
    (hsites : ∀ s ∈ desc.sites, P s) : ∀ s ∈ d.sites, P s := by
  intro s hs
  rw [h.sites] at hs
  split_ifs at hs
  · rw [(Array.mem_replicate.mp hs).2]
    exact hblank
  · exact hsites s (by simpa using hs)

end Realises

end Device

end QuantumCompiler
