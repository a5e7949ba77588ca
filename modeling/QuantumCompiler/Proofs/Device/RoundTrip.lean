import Mathlib.Data.List.Nodup
import QuantumCompiler.Proofs.Device.Zones

/-!
# Descriptors of devices

A device is made of a descriptor in a normal form: repeated edges and kinds are
left out, kinds are sorted, sites without data are filled in, and no zone and one
zone are the same.  The descriptor that a device gives back is in that form, so
a device made of it is the same again.

* `keepFirst_eq_self`, `GateSet.ofNames_names` and `calibration?_congr` say that
  each part of the normal form stays as it is.
* `Realises.descriptor` puts the parts together, and `Realises.withZones` carries
  it over to a device that was split again.
-/

namespace QuantumCompiler

/-! ## Coupling maps -/

/-- Edges that are kept once are kept again. -/
theorem Edge.keepFirst_eq_self {edges : List Edge}
    (h : edges.Pairwise fun e f => e.same f = false) : keepFirst edges = edges := by
  induction edges with
  | nil => rfl
  | cons e rest ih =>
    obtain ⟨hnew, hrest⟩ := List.pairwise_cons.mp h
    rw [keepFirst, ih hrest, List.filter_eq_self.mpr fun f hf => by simpa using hnew f hf]

/-- A coupling map is made of its own edges. -/
theorem CouplingMap.ofEdges_edges (m : CouplingMap) : ofEdges m.size m.edges = .ok m := by
  obtain ⟨size, edges, tables, hvalid, hdistinct, htables⟩ := m
  have hnone : edges.findSome? (Edge.error? size) = none := List.findSome?_eq_none_iff.mpr hvalid
  unfold ofEdges
  split
  · next h => rw [hnone] at h; cases h
  · simp only [Edge.keepFirst_eq_self hdistinct, htables]

/-! ## Native kinds -/

namespace GateSet

variable {kinds : List Kind} {names : List String}

theorem nodup_eraseDups (kinds : List Kind) : kinds.eraseDups.Nodup := by
  -- The tail of the result comes from a shorter list, not from the tail.
  induction h : kinds.length using Nat.strong_induction_on generalizing kinds with
  | _ n ih =>
    cases kinds with
    | nil => exact List.nodup_nil
    | cons k rest =>
      rw [List.eraseDups_cons, List.nodup_cons]
      refine ⟨by simp, ih _ ?_ _ rfl⟩
      rw [← h]
      exact Nat.lt_succ_of_le (List.length_filter_le _ _)

theorem eraseDups_eq_self (h : kinds.Nodup) : kinds.eraseDups = kinds := by
  induction kinds with
  | nil => rfl
  | cons k rest ih =>
    obtain ⟨hnew, hrest⟩ := List.nodup_cons.mp h
    have hother : rest.filter (fun l => !l == k) = rest :=
      List.filter_eq_self.mpr fun l hl => by simpa using ne_of_mem_of_not_mem hl hnew
    rw [List.eraseDups_cons, hother, ih hrest]

theorem pairwise_byName (kinds : List Kind) :
    (kinds.mergeSort byName).Pairwise fun a b => byName a b = true := by
  refine List.pairwise_mergeSort (fun a b c hab hbc => ?_) (fun a b => ?_) kinds
  · exact decide_eq_true (String.le_trans (of_decide_eq_true hab) (of_decide_eq_true hbc))
  · simpa [byName] using String.le_total a.name b.name

/-- A set of kinds is made of its own names. -/
theorem ofNames_names (names : List String) : ofNames (ofNames names).names = ofNames names := by
  have hkinds : (ofNames names).names.map Kind.ofName = (ofNames names).kinds := by
    rw [GateSet.names, List.map_map]
    exact List.map_id'' Kind.ofName_name _
  have hnodup : (ofNames names).kinds.Nodup :=
    (List.mergeSort_perm _ _).nodup_iff.mpr (nodup_eraseDups _)
  have hsorted : (ofNames names).kinds.Pairwise fun a b => byName a b = true := pairwise_byName _
  rw [ofNames, hkinds, ofKinds, eraseDups_eq_self hnodup, List.mergeSort_of_pairwise hsorted]

theorem mem_names_ofNames {name : String} : name ∈ (ofNames names).names ↔ name ∈ names := by
  simp only [GateSet.names, ofNames, ofKinds, List.mem_map, List.mem_mergeSort,
    List.mem_eraseDups]
  constructor
  · rintro ⟨_, ⟨n, hn, rfl⟩, rfl⟩
    rwa [Kind.name_ofName]
  · exact fun hname => ⟨_, ⟨name, hname, rfl⟩, Kind.name_ofName name⟩

end GateSet

namespace Device

variable {α : Type}

/-! ## Calibrations -/

/-- The order in which a descriptor lists the calibrations. -/
def sortedOperations (operations : List (Calibration α)) : List (Calibration α) :=
  operations.mergeSort fun a b => decide (a.name ≤ b.name)

theorem sortedOperations_perm (operations : List (Calibration α)) :
    (sortedOperations operations).Perm operations := List.mergeSort_perm _ _

theorem sortedOperations_idem (operations : List (Calibration α)) :
    sortedOperations (sortedOperations operations) = sortedOperations operations := by
  refine List.mergeSort_of_pairwise
    (List.pairwise_mergeSort (fun a b c hab hbc => ?_) (fun a b => ?_) _)
  · exact decide_eq_true (String.le_trans (of_decide_eq_true hab) (of_decide_eq_true hbc))
  · simpa using String.le_total a.name b.name

/-- Where kinds are calibrated once, the calibration of a kind is the one with its
name. -/
theorem find?_name_eq_some_iff {operations : List (Calibration α)} {name : String}
    {c : Calibration α} (hdistinct : (operations.map (·.name)).Nodup) :
    operations.find? (·.name == name) = some c ↔ c ∈ operations ∧ c.name = name := by
  constructor
  · intro h
    exact ⟨List.mem_of_find?_eq_some h, by simpa using List.find?_some h⟩
  · rintro ⟨hc, rfl⟩
    obtain ⟨c', hc'⟩ := Option.isSome_iff_exists.mp
      (List.find?_isSome (p := (·.name == c.name)).mpr ⟨c, hc, beq_self_eq_true c.name⟩)
    have hname : c'.name = c.name := by simpa using List.find?_some hc'
    rw [hc', List.inj_on_of_nodup_map hdistinct (List.mem_of_find?_eq_some hc') hc hname]

/-- The order of the calibrations does not matter. -/
theorem calibration?_congr {d d' : Device α} (hdistinct : (d.operations.map (·.name)).Nodup)
    (hperm : d'.operations.Perm d.operations) (kind : Kind) :
    d'.calibration? kind = d.calibration? kind := by
  have hdistinct' : (d'.operations.map (·.name)).Nodup := (hperm.map _).nodup_iff.mpr hdistinct
  refine Option.ext fun c => ?_
  rw [calibration?, calibration?, find?_name_eq_some_iff hdistinct,
    find?_name_eq_some_iff hdistinct', hperm.mem_iff]

/-! ## Devices -/

section Parts

variable (d : Device α)

theorem descriptor_name : d.descriptor.name = d.name := rfl

theorem descriptor_operations : d.descriptor.operations = sortedOperations d.operations := rfl

end Parts

variable [RealArith α] {desc : Descriptor α} {d : Device α}

/-- A device that is split again realises the same descriptor with other zones. -/
theorem Realises.withZones (h : Realises desc d) (zones : Nat) :
    Realises { desc with zones := (d.withZones zones).zones } (d.withZones zones) :=
  { h with
    valid := { h.valid with }
    zones_le := by
      have hpos := h.valid.numQubits
      have hsize : d.coupling.size = desc.numQubits := h.numQubits
      rw [Device.withZones]
      dsimp only
      omega
    zones := (Nat.max_eq_left (d.withZones zones).zones_pos).symm }

/-- The descriptor of a device is realised by the device with its calibrations
sorted. -/
theorem Realises.descriptor (hblank : (Site.uncalibrated : Site α).Valid) (h : Realises desc d) :
    Realises d.descriptor { d with operations := sortedOperations d.operations } where
  valid :=
    { name := by
        rw [descriptor_name, h.name]
        exact h.valid.name
      numQubits := h.numQubits_pos
      pairs := fun e he => by
        obtain ⟨_, -, rfl⟩ := List.mem_map.mp he
        rfl
      natives_ne_nil := by
        obtain ⟨name, hname⟩ := List.exists_mem_of_ne_nil _ h.valid.natives_ne_nil
        have hmem : name ∈ d.natives.names := h.natives ▸ GateSet.mem_names_ofNames.mpr hname
        exact List.ne_nil_of_mem hmem
      natives_named := fun kind hkind => by
        have hmem : kind ∈ (GateSet.ofNames desc.nativeGates).names := h.natives ▸ hkind
        exact h.valid.natives_named kind (GateSet.mem_names_ofNames.mp hmem)
      sites := fun s hs =>
        h.forall_sites hblank h.valid.sites s (by simpa [Device.descriptor] using hs)
      operations := fun c hc => by
        rw [descriptor_operations, (sortedOperations_perm d.operations).mem_iff,
          h.operations] at hc
        exact h.valid.operations c hc }
  sites_length := .inr h.size_sites
  zones_le := by
    have hle := zones_le_numQubits h.numQubits_pos
    simp only [Device.descriptor]
    split_ifs
    · exact Nat.zero_le _
    · exact hle
  coupling := by
    rw [Device.descriptor, edgesOf_pairs]
    exact d.coupling.ofEdges_edges
  fits c hc := by
    rw [descriptor_operations, (sortedOperations_perm d.operations).mem_iff, h.operations] at hc
    exact h.fits c hc
  distinct := by
    have hdistinct := h.distinct
    rw [← h.operations] at hdistinct
    exact ((sortedOperations_perm d.operations).map _).nodup_iff.mpr hdistinct
  name := rfl
  natives := by
    rw [Device.descriptor, h.natives, GateSet.ofNames_names]
  sites := by
    have hne : d.sites.toList.isEmpty = false := by
      have hsize := h.size_sites
      have hpos := h.numQubits_pos
      rw [List.isEmpty_eq_false_iff, ← List.length_pos_iff, Array.length_toList]
      omega
    rw [Device.descriptor, hne, if_neg (by simp), Array.toArray_toList]
  operations := rfl
  zones := by
    have hpos := d.zones_pos
    simp only [Device.descriptor, beq_iff_eq]
    split_ifs <;> omega

/-- Two devices give the same answers. -/
structure Agrees (d d' : Device α) : Prop where
  descriptor : d'.descriptor = d.descriptor
  name : d'.name = d.name
  /-- The same number of qubits, edges in their order, neighbours, distances and
  components. -/
  coupling : d'.coupling = d.coupling
  natives : d'.natives = d.natives
  site : ∀ q, d'.site q = d.site q
  calibration : ∀ kind, d'.calibration? kind = d.calibration? kind
  zones : d'.zones = d.zones

/-- A device that realises some descriptor is made of its own one. -/
theorem Realises.exists_agrees (hblank : (Site.uncalibrated : Site α).Valid)
    (h : Realises desc d) : ∃ d', ofDescriptor d.descriptor = .ok d' ∧ Agrees d d' := by
  have hdistinct : (d.operations.map (·.name)).Nodup := h.operations ▸ h.distinct
  refine ⟨_, ofDescriptor_eq_ok_iff.mpr (h.descriptor hblank), ?_, rfl, rfl, rfl, fun _ => rfl,
    ?_, rfl⟩
  · have hsorted := sortedOperations_idem d.operations
    simp only [sortedOperations] at hsorted
    simp only [Device.descriptor, sortedOperations, hsorted]
    rfl
  · exact calibration?_congr hdistinct (sortedOperations_perm d.operations)

theorem valid_uncalibrated : (Site.uncalibrated : Site Float).Valid := by
  have hnone : (Site.uncalibrated : Site Float).violations "" = [] := by decide +kernel
  exact Site.violations_eq_nil_iff.mp hnone

/-- A device is made of the descriptor that it gives back, and so is a device that
was split into other zones. -/
theorem ofDescriptor_descriptor {desc : Descriptor Float} {d : Device Float}
    (h : ofDescriptor desc = .ok d) :
    (∃ d', ofDescriptor d.descriptor = .ok d' ∧ Agrees d d') ∧
      ∀ zones, ∃ d', ofDescriptor (d.withZones zones).descriptor = .ok d' ∧
      Agrees (d.withZones zones) d' := by
  have hd := ofDescriptor_eq_ok_iff.mp h
  exact ⟨hd.exists_agrees valid_uncalibrated,
    fun zones => (hd.withZones zones).exists_agrees valid_uncalibrated⟩

/-- An edge that is given in both directions, a kind that is given twice,
calibrations out of order, no sites and a single zone. -/
def untidyDescriptor : Descriptor Float :=
  { name := "untidy"
    numQubits := 3
    couplingMap := [[1, 0], [1, 2], [0, 1]]
    nativeGates := ["rz", "cz", "rz"]
    operations := [⟨"rz", 0, 1, 1⟩, ⟨"cz", 5e-7, 0.75, 2⟩]
    zones := 1 }

theorem ofDescriptor_untidyDescriptor :
    ∃ d, ofDescriptor untidyDescriptor = .ok d ∧ d.coupling.edges = [(1, 0), (1, 2)] ∧
      d.descriptor.zones = 0 ∧
      (∃ d', ofDescriptor d.descriptor = .ok d' ∧ Agrees d d') ∧
      ∃ d', ofDescriptor (d.withZones 2).descriptor = .ok d' ∧ Agrees (d.withZones 2) d' := by
  have hvalid : untidyDescriptor.violations = [] := by decide +kernel
  obtain ⟨d, hd, hcoupling⟩ : ∃ d, ofDescriptor untidyDescriptor = .ok d ∧
      d.coupling = ⟨3, [(1, 0), (1, 2)], _, by decide, by decide, rfl⟩ :=
    exists_ofDescriptor (Descriptor.violations_eq_nil_iff.mp hvalid) (.inl rfl) (by decide)
      rfl rfl
  obtain ⟨hagain, hzoned⟩ := ofDescriptor_descriptor hd
  have hzones : (if d.zones == 1 then 0 else d.zones) = 0 := by
    rw [(ofDescriptor_eq_ok_iff.mp hd).zones]
    rfl
  exact ⟨d, hd, by rw [hcoupling], hzones, hagain, hzoned 2⟩

end Device

end QuantumCompiler
