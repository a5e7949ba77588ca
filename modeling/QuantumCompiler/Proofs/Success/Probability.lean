import QuantumCompiler.Proofs.Numeric.RealLine
import Mathlib.Algebra.Order.BigOperators.GroupWithZero.List
import QuantumCompiler.Proofs.Circuit.Asap
import QuantumCompiler.Proofs.Device.Descriptor
import QuantumCompiler.Proofs.Qubits.BitSet
import QuantumCompiler.Success.Estimate

/-!
# Success probabilities on the real line

Read on the real line, the estimate of a circuit consists of probabilities that
are not zero.

* `Config.Valid` is what the check of a configuration asks, and `Calibrated` is
  what the check of a descriptor leaves of a device.  With both, operations succeed
  with a positive probability and take no negative time (`fidelity_mem`,
  `duration_nonneg`), and so does waiting (`decay_mem`).
* `layerProbability_eq` writes the estimate of a layer as a product over its
  operations and the qubits that wait for the longest of them.
* `qubits_perm`: the operations of a layer and the waiting qubits together are the
  active qubits, each once.  This is where layers without shared qubits come in.
* `runningProducts` are products of more and more layers, so they descend.
-/

namespace QuantumCompiler

variable {α : Type}

/-! ## Active qubits -/

/-- The active qubits are those that some operation other than a barrier acts on. -/
theorem Circuit.mem_activeQubits_iff {c : Circuit α} {q : Nat} :
    q ∈ c.activeQubits.elements ↔ ∃ op ∈ c.ops, op.isBarrier = false ∧ q ∈ op.qubits := by
  have hfold (ops : List (Operation α)) (s : BitSet) :
      (ops.foldl (fun active op => if op.isBarrier then active else active.insertAll op.qubits)
        s).contains q = true ↔
        s.contains q = true ∨ ∃ op ∈ ops, op.isBarrier = false ∧ q ∈ op.qubits := by
    induction ops generalizing s with
    | nil => simp
    | cons op rest ih =>
      rw [List.foldl_cons, ih, List.exists_mem_cons_iff]
      cases hbarrier : op.isBarrier with
      | true => simp
      | false => simp [BitSet.contains_insertAll, or_assoc]
  rw [BitSet.mem_elements_iff, activeQubits, hfold, BitSet.contains_ofSize]
  simp

namespace Success

/-! ## Configurations and devices -/

/-- What the rules ask of a configuration. -/
structure Config.Valid (c : Config ℝ) : Prop where
  singleQubitFidelity : c.singleQubitFidelity ∈ Set.Ioc 0 1
  multiQubitFidelity : c.multiQubitFidelity ∈ Set.Ioc 0 1
  singleQubitDuration : 0 ≤ c.singleQubitDuration
  multiQubitDuration : 0 ≤ c.multiQubitDuration
  measureDuration : 0 ≤ c.measureDuration
  t1 : 0 < c.t1
  t2 : 0 < c.t2
  readoutError : c.readoutError ∈ Set.Ico 0 1

theorem Config.invalid?_eq_none_iff {c : Config ℝ} : c.invalid? = none ↔ c.Valid := by
  have hnone : c.invalid? = none ↔ c.violations "Config" = [] := by
    rw [invalid?]
    split
    · next h => simp [h]
    · next h => simpa using h
  rw [hnone, violations]
  simp only [List.append_eq_nil_iff, Violation.check_eq_nil_iff, List.forall_mem_cons,
    List.not_mem_nil, false_implies, implies_true, and_true, Violation.positive,
    Violation.atMostOne, Violation.nonnegative,
    Violation.belowOne, RealArith.lt_real, RealArith.le_real, RealArith.zero_real,
    RealArith.one_real]
  constructor
  · rintro ⟨⟨⟨⟨⟨⟨⟨h1, h2⟩, h3⟩, h4⟩, h5⟩, h6⟩, h7⟩, h8⟩
    exact ⟨h1, h2, h3, h4, h5, h6, h7, h8⟩
  · rintro ⟨h1, h2, h3, h4, h5, h6, h7, h8⟩
    exact ⟨⟨⟨⟨⟨⟨⟨h1, h2⟩, h3⟩, h4⟩, h5⟩, h6⟩, h7⟩, h8⟩

/-- The calibration data of a device obey the rules. -/
structure Calibrated (d : Device ℝ) : Prop where
  site : ∀ q, (d.site q).Valid
  operation : ∀ kind c, d.calibration? kind = some c → c.Valid

theorem valid_uncalibrated_real : (Site.uncalibrated : Site ℝ).Valid := by
  constructor <;> simp [Site.uncalibrated]

theorem calibrated_of_ofDescriptor {desc : Descriptor ℝ} {d : Device ℝ}
    (h : Device.ofDescriptor desc = .ok d) : Calibrated d := by
  have hd := Device.ofDescriptor_eq_ok_iff.mp h
  constructor
  · intro q
    rw [Device.site, Array.getD_eq_getD_getElem?]
    cases hget : d.sites[q]? with
    | none => exact valid_uncalibrated_real
    | some s =>
      exact hd.forall_sites valid_uncalibrated_real hd.valid.sites s
        (Array.mem_of_getElem? hget)
  · intro kind c hc
    exact hd.valid.operations c (hd.operations ▸ List.mem_of_find?_eq_some hc)

theorem calibrated_uncalibrated (name : String) (coupling : CouplingMap) (natives : GateSet) :
    Calibrated (Device.uncalibrated name coupling natives) := by
  constructor
  · intro q
    have hsite :
        (Device.uncalibrated name coupling natives : Device ℝ).site q = Site.uncalibrated := by
      rw [Device.site, Device.uncalibrated, Array.getD_eq_getD_getElem?, Array.getElem?_replicate]
      split_ifs <;> rfl
    rw [hsite]
    exact valid_uncalibrated_real
  · intro kind c hc
    cases hc

/-! ## Single operations and qubits -/

theorem mul_mem_Ioc {x y : ℝ} (hx : x ∈ Set.Ioc (0 : ℝ) 1) (hy : y ∈ Set.Ioc (0 : ℝ) 1) :
    x * y ∈ Set.Ioc (0 : ℝ) 1 :=
  ⟨mul_pos hx.1 hy.1, mul_le_one₀ hx.2 hy.1.le hy.2⟩

theorem prod_mem_Ioc {xs : List ℝ} (h : ∀ x ∈ xs, x ∈ Set.Ioc (0 : ℝ) 1) :
    xs.prod ∈ Set.Ioc (0 : ℝ) 1 := by
  induction xs with
  | nil => simp
  | cons x rest ih =>
    obtain ⟨hx, hrest⟩ := List.forall_mem_cons.mp h
    rw [List.prod_cons]
    exact mul_mem_Ioc hx (ih hrest)

/-- Factors one after the other are multiplied. -/
theorem foldl_mul {β : Type} (f : β → ℝ) (xs : List β) (a : ℝ) :
    xs.foldl (fun product x => product * f x) a = a * (xs.map f).prod := by
  induction xs generalizing a with
  | nil => simp
  | cons x rest ih => rw [List.foldl_cons, ih, List.map_cons, List.prod_cons, mul_assoc]

/-- What was measured counts only if it is positive. -/
theorem measuredOr_real (measured assumed : ℝ) :
    measuredOr measured assumed = if 0 < measured then measured else assumed := by
  simp [measuredOr]

theorem measuredOr_pos (measured : ℝ) {assumed : ℝ} (h : 0 < assumed) :
    0 < measuredOr measured assumed := by
  rw [measuredOr_real]
  split_ifs with hmeasured
  · exact hmeasured
  · exact h

section Bounds

variable {d : Device ℝ} {config : Config ℝ} (hd : Calibrated d) (hconfig : config.Valid)

include hd hconfig

theorem readoutError_mem (q : Nat) : readoutError d config q ∈ Set.Ico (0 : ℝ) 1 := by
  rw [readoutError, measuredOr_real]
  split_ifs with h
  · exact ⟨h.le, by simpa using (hd.site q).readoutError_lt⟩
  · exact hconfig.readoutError

theorem fidelity_mem (op : Operation ℝ) : (characterise d config op).1 ∈ Set.Ioc (0 : ℝ) 1 := by
  rw [characterise]
  split
  · next c hc =>
    have hvalid := hd.operation _ c hc
    exact ⟨by simpa using hvalid.fidelity_pos, by simpa using hvalid.fidelity_le⟩
  · split_ifs
    · dsimp only
      rw [foldl_mul, RealArith.one_real, one_mul]
      refine prod_mem_Ioc (List.forall_mem_map.mpr fun q _ => ?_)
      obtain ⟨hnonneg, hlt⟩ := readoutError_mem hd hconfig q
      exact ⟨sub_pos.mpr hlt, sub_le_self 1 hnonneg⟩
    · exact hconfig.singleQubitFidelity
    · exact hconfig.multiQubitFidelity
    · exact hconfig.singleQubitFidelity

theorem duration_nonneg (op : Operation ℝ) : 0 ≤ (characterise d config op).2 := by
  rw [characterise]
  split
  · next c hc => simpa using (hd.operation _ c hc).duration
  · split_ifs
    · exact hconfig.measureDuration
    · exact hconfig.measureDuration
    · exact hconfig.multiQubitDuration
    · exact hconfig.singleQubitDuration

omit hd in
/-- A qubit keeps its state for any time with a positive probability. -/
theorem decay_mem {duration : ℝ} (h : 0 ≤ duration) (q : Nat) :
    decay d config duration q ∈ Set.Ioc (0 : ℝ) 1 := by
  have hexp {t : ℝ} (ht : 0 < t) : Real.exp (-duration / t) ∈ Set.Ioc (0 : ℝ) 1 :=
    ⟨Real.exp_pos _,
      Real.exp_le_one_iff.mpr (div_nonpos_of_nonpos_of_nonneg (neg_nonpos.mpr h) ht.le)⟩
  exact mul_mem_Ioc (hexp (measuredOr_pos (d.site q).t1 hconfig.t1))
    (hexp (measuredOr_pos (d.site q).t2 hconfig.t2))

end Bounds

/-! ## Layers -/

/-- The duration of the longest of some operations. -/
noncomputable def longest (d : Device ℝ) (config : Config ℝ) (ops : List (Operation ℝ)) : ℝ :=
  (ops.map fun op => (characterise d config op).2).foldl (· ⊔ ·) 0

/-- The qubits that wait during a layer. -/
def waiting (active : List Nat) (ops : List (Operation α)) : List Nat :=
  active.filter fun q => !ops.any (·.actsOn q)

/-- The success of a layer is that of its operations and of the qubits that wait for
the longest of them. -/
theorem layerProbability_eq (d : Device ℝ) (config : Config ℝ) (active : List Nat)
    (ops : List (Operation ℝ)) :
    layerProbability d config active ops =
      (ops.map fun op => (characterise d config op).1).prod *
        ((waiting active ops).map (decay d config (longest d config ops))).prod := by
  have hfold {step : ℝ × ℝ → Operation ℝ → ℝ × ℝ}
      (hstep : ∀ a t op, step (a, t) op =
        (a * (characterise d config op).1, t ⊔ (characterise d config op).2))
      (a t : ℝ) : ops.foldl step (a, t) =
        (a * (ops.map fun op => (characterise d config op).1).prod,
        (ops.map fun op => (characterise d config op).2).foldl (· ⊔ ·) t) := by
    induction ops generalizing a t with
    | nil => simp
    | cons op rest ih =>
      rw [List.foldl_cons, hstep, ih, List.map_cons, List.map_cons, List.prod_cons,
        List.foldl_cons, mul_assoc]
  rw [layerProbability, hfold (fun a t op => by rw [← RealArith.max_real]), RealArith.one_real,
    RealArith.zero_real, one_mul]
  exact foldl_mul _ _ _

/-- The longest duration is that of some operation, and no other is longer. -/
theorem isGreatest_longest {d : Device ℝ} {config : Config ℝ} (hd : Calibrated d)
    (hconfig : config.Valid) {ops : List (Operation ℝ)} (hne : ops ≠ []) :
    IsGreatest {t | ∃ op ∈ ops, (characterise d config op).2 = t} (longest d config ops) := by
  have hfold (ops : List (Operation ℝ)) (t : ℝ) :
      let top := (ops.map fun op => (characterise d config op).2).foldl (· ⊔ ·) t
      (top = t ∨ ∃ op ∈ ops, (characterise d config op).2 = top) ∧ t ≤ top ∧
        ∀ op ∈ ops, (characterise d config op).2 ≤ top := by
    induction ops generalizing t with
    | nil => simp
    | cons op rest ih =>
      obtain ⟨hsome, hle, hall⟩ := ih (t ⊔ (characterise d config op).2)
      rw [List.map_cons, List.foldl_cons]
      refine ⟨?_, le_sup_left.trans hle, List.forall_mem_cons.mpr ⟨le_sup_right.trans hle, hall⟩⟩
      rcases hsome with htop | ⟨op', hop', htop⟩
      · rcases le_total t (characterise d config op).2 with h | h
        · exact .inr ⟨op, List.mem_cons_self, by rw [htop, sup_eq_right.mpr h]⟩
        · exact .inl (by rw [htop, sup_eq_left.mpr h])
      · exact .inr ⟨op', List.mem_cons_of_mem _ hop', htop⟩
  obtain ⟨hsome, -, hall⟩ := hfold ops 0
  constructor
  · rcases hsome with hzero | hop
    · -- A layer that takes no time consists of operations that take none.
      obtain ⟨op, hop⟩ := List.exists_mem_of_ne_nil ops hne
      have hle := hall op hop
      rw [hzero] at hle
      exact ⟨op, hop,
        by rw [longest, hzero]; exact le_antisymm hle (duration_nonneg hd hconfig op)⟩
    · exact hop
  · rintro _ ⟨op, hop, rfl⟩
    exact hall op hop

theorem layerProbability_mem {d : Device ℝ} {config : Config ℝ} (hd : Calibrated d)
    (hconfig : config.Valid) (active : List Nat) {ops : List (Operation ℝ)} (hne : ops ≠ []) :
    layerProbability d config active ops ∈ Set.Ioc (0 : ℝ) 1 := by
  obtain ⟨op, -, hop⟩ := (isGreatest_longest hd hconfig hne).1
  have hnonneg : 0 ≤ longest d config ops := hop ▸ duration_nonneg hd hconfig op
  rw [layerProbability_eq]
  refine mul_mem_Ioc (prod_mem_Ioc ?_) (prod_mem_Ioc ?_)
  · exact List.forall_mem_map.mpr fun op _ => fidelity_mem hd hconfig op
  · exact List.forall_mem_map.mpr fun q _ => decay_mem hconfig hnonneg q

/-! ## The operations of a layer -/

section LayerOps

variable {c : Circuit α} {layer : List Nat}

/-- The operations of a layer by their indices. -/
def opsAt (c : Circuit α) (layer : List Nat) : List (Operation α) :=
  layer.filterMap (c.ops.toArray[·]?)

theorem layerOps_eq_map (c : Circuit α) : layerOps c = c.layers.map (opsAt c) := rfl

theorem mem_opsAt_iff {op : Operation α} :
    op ∈ opsAt c layer ↔ ∃ i ∈ layer, c.ops[i]? = some op := by
  simp [opsAt]

/-- Every index of a layer is that of an operation other than a barrier. -/
theorem exists_of_mem_layer (hc : c.WellFormed) (hlayer : layer ∈ c.layers) {i : Nat}
    (hi : i ∈ layer) : ∃ op, c.ops[i]? = some op ∧ op.isBarrier = false :=
  (Circuit.mem_flatten_layers_iff hc).mp (List.mem_flatten.mpr ⟨layer, hlayer, hi⟩)

theorem map_some_opsAt (hc : c.WellFormed) (hlayer : layer ∈ c.layers) :
    (opsAt c layer).map some = layer.map (c.ops[·]?) := by
  have hall : ∀ i ∈ layer, ∃ op, c.ops[i]? = some op := fun i hi => by
    obtain ⟨op, hop, -⟩ := exists_of_mem_layer hc hlayer hi
    exact ⟨op, hop⟩
  clear hlayer
  induction layer with
  | nil => rfl
  | cons i rest ih =>
    obtain ⟨⟨op, hop⟩, hrest⟩ := List.forall_mem_cons.mp hall
    have hrest' := ih hrest
    rw [opsAt] at hrest' ⊢
    rw [List.filterMap_cons_some (by simpa using hop), List.map_cons, List.map_cons, hrest', hop]

/-- The qubits of the operations of a layer and the waiting qubits are the active
qubits, each once. -/
theorem qubits_perm (hc : c.WellFormed) (hlayer : layer ∈ c.layers) :
    ((opsAt c layer).flatMap (·.qubits) ++ waiting c.activeQubits.elements (opsAt c layer)).Perm
      c.activeQubits.elements := by
  have hactive : c.activeQubits.elements.Nodup :=
    c.activeQubits.elements_ascending.imp Nat.ne_of_lt
  have hascending : layer.Pairwise (· < ·) := by
    obtain ⟨k, hk⟩ := List.mem_iff_getElem?.mp hlayer
    exact ((Circuit.layers_follow hc).2 k layer hk).1.ascending
  have hbusy : ((opsAt c layer).flatMap (·.qubits)).Nodup := by
    refine List.nodup_flatMap.mpr ⟨fun op hop => ?_, ?_⟩
    · obtain ⟨i, -, hget⟩ := mem_opsAt_iff.mp hop
      exact (hc op (List.mem_of_getElem? hget)).nodup
    · refine List.pairwise_filterMap.mpr
        (hascending.imp_of_mem fun {i j} hi hj hlt a ha b hb => ?_)
      exact (Circuit.disjoint_of_mem_layer hc hlayer hi hj (Nat.ne_of_lt hlt) (by simpa using ha)
        (by simpa using hb)).1
  have hwaits {q : Nat} : q ∈ waiting c.activeQubits.elements (opsAt c layer) ↔
      q ∈ c.activeQubits.elements ∧ q ∉ (opsAt c layer).flatMap (·.qubits) := by
    simp [waiting, Operation.actsOn]
  have hnodup : ((opsAt c layer).flatMap (·.qubits) ++
      waiting c.activeQubits.elements (opsAt c layer)).Nodup :=
    List.nodup_append'.mpr ⟨hbusy, hactive.filter _, fun q hq hwait => (hwaits.mp hwait).2 hq⟩
  refine (List.perm_ext_iff_of_nodup hnodup hactive).mpr fun q => ?_
  rw [List.mem_append, hwaits]
  constructor
  · rintro (hq | ⟨hq, -⟩)
    · obtain ⟨op, hop, hq⟩ := List.mem_flatMap.mp hq
      obtain ⟨i, hi, hget⟩ := mem_opsAt_iff.mp hop
      obtain ⟨op', hget', hbarrier⟩ := exists_of_mem_layer hc hlayer hi
      rw [hget] at hget'
      cases hget'
      exact Circuit.mem_activeQubits_iff.mpr ⟨op, List.mem_of_getElem? hget, hbarrier, hq⟩
    · exact hq
  · intro hq
    by_cases hmem : q ∈ (opsAt c layer).flatMap (·.qubits)
    · exact .inl hmem
    · exact .inr ⟨hq, hmem⟩

end LayerOps

/-! ## Running products -/

section RunningProducts

variable {xs : List ℝ} {factor : ℝ}

theorem length_runningProducts (factor : ℝ) (xs : List ℝ) :
    (runningProducts factor xs).length = xs.length := by
  induction xs generalizing factor with
  | nil => rfl
  | cons x rest ih => rw [runningProducts, List.length_cons, List.length_cons, ih]

theorem getElem?_runningProducts (factor : ℝ) {k : Nat} (hk : k < xs.length) :
    (runningProducts factor xs)[k]? = some (factor * (xs.take (k + 1)).prod) := by
  induction xs generalizing factor k with
  | nil => exact absurd hk (Nat.not_lt_zero k)
  | cons x rest ih =>
    rw [runningProducts, List.take_succ_cons, List.prod_cons, ← mul_assoc]
    cases k with
    | zero => simp
    | succ k => exact ih (factor * x) (Nat.lt_of_succ_lt_succ hk)

/-- Products of more and more factors up to one descend. -/
theorem runningProducts_descend (hfactor : 0 ≤ factor) (h : ∀ x ∈ xs, x ∈ Set.Ioc (0 : ℝ) 1) :
    (runningProducts factor xs).Pairwise (· ≥ ·) ∧
      ∀ y ∈ runningProducts factor xs, y ≤ factor := by
  induction xs generalizing factor with
  | nil => exact ⟨.nil, fun y hy => absurd hy List.not_mem_nil⟩
  | cons x rest ih =>
    obtain ⟨⟨hpos, hle⟩, hrest⟩ := List.forall_mem_cons.mp h
    obtain ⟨hdescend, hbelow⟩ := ih (mul_nonneg hfactor hpos.le) hrest
    have hstep : factor * x ≤ factor := mul_le_of_le_one_right hfactor hle
    rw [runningProducts]
    exact ⟨List.pairwise_cons.mpr ⟨hbelow, hdescend⟩,
      List.forall_mem_cons.mpr ⟨hstep, fun y hy => (hbelow y hy).trans hstep⟩⟩

end RunningProducts

/-! ## Estimates -/

/-- What an estimate promises. -/
structure Estimate.Plausible (d : Device ℝ) (config : Config ℝ) (c : Circuit ℝ)
    (e : Estimate ℝ) : Prop where
  length_layers : e.layers.length = c.depth
  length_cumulative : e.cumulative.length = c.depth
  layers_mem : ∀ x ∈ e.layers, x ∈ Set.Ioc (0 : ℝ) 1
  /-- The running product of the layers. -/
  cumulative_eq : ∀ k < c.depth, e.cumulative[k]? = some (e.layers.take (k + 1)).prod
  descending : e.cumulative.Pairwise (· ≥ ·)
  total_eq : e.total = e.cumulative.getLast?.getD 1
  /-- The active qubits are those that an operation other than a barrier acts on, each
  listed once. -/
  active : c.activeQubits.elements.Nodup ∧
    ∀ q, q ∈ c.activeQubits.elements ↔ ∃ op ∈ c.ops, op.isBarrier = false ∧ q ∈ op.qubits
  /-- Every active qubit contributes once to a layer, through the operation on it or
  through its decay over the longest duration in the layer. -/
  contributions : ∀ (k : Nat) (layer : List Nat), c.layers[k]? = some layer →
    ∃ (ops : List (Operation ℝ)) (idle : List Nat) (duration : ℝ),
    ops.map some = layer.map (c.ops[·]?) ∧
      (ops.flatMap (·.qubits) ++ idle).Perm c.activeQubits.elements ∧
      IsGreatest {t | ∃ op ∈ ops, (characterise d config op).2 = t} duration ∧
      e.layers[k]? = some ((ops.map fun op => (characterise d config op).1).prod *
        (idle.map (decay d config duration)).prod)

/-- The operations of a layer that is not empty are not either. -/
theorem opsAt_ne_nil {c : Circuit α} (hc : c.WellFormed) {layer : List Nat}
    (hlayer : layer ∈ c.layers) : opsAt c layer ≠ [] := by
  obtain ⟨k, hk⟩ := List.mem_iff_getElem?.mp hlayer
  obtain ⟨i, hi⟩ := List.exists_mem_of_ne_nil layer ((Circuit.layers_follow hc).2 k layer hk).2
  obtain ⟨op, hop, -⟩ := exists_of_mem_layer hc hlayer hi
  exact List.ne_nil_of_mem (mem_opsAt_iff.mpr ⟨i, hi, hop⟩)

/-- On a device whose data were checked, with a configuration that was checked, the
estimate of a well-formed circuit consists of probabilities that only decrease, and
counts every active qubit once in each layer. -/
theorem estimate_plausible {d : Device ℝ} {config : Config ℝ} {c : Circuit ℝ}
    (hd : (∃ desc, Device.ofDescriptor desc = .ok d) ∨
      ∃ name coupling natives, d = Device.uncalibrated name coupling natives)
    (hconfig : config.invalid? = none) (hc : c.WellFormed) :
    (estimate d config c).Plausible d config c := by
  have hvalid := Config.invalid?_eq_none_iff.mp hconfig
  have hcalibrated : Calibrated d := by
    rcases hd with ⟨desc, hdesc⟩ | ⟨name, coupling, natives, rfl⟩
    · exact calibrated_of_ofDescriptor hdesc
    · exact calibrated_uncalibrated name coupling natives
  have hlayers : (estimate d config c).layers =
      c.layers.map fun layer =>
        layerProbability d config c.activeQubits.elements (opsAt c layer) := by
    rw [estimate, layerOps_eq_map, List.map_map]
    rfl
  have hlength : (estimate d config c).layers.length = c.depth := by
    rw [hlayers, List.length_map, Circuit.depth]
  have hmem : ∀ x ∈ (estimate d config c).layers, x ∈ Set.Ioc (0 : ℝ) 1 := by
    rw [hlayers]
    exact List.forall_mem_map.mpr fun layer hlayer =>
      layerProbability_mem hcalibrated hvalid _ (opsAt_ne_nil hc hlayer)
  have hcumulative :
      (estimate d config c).cumulative = runningProducts 1 (estimate d config c).layers := by
    rw [← RealArith.one_real]
    rfl
  refine
    { length_layers := hlength
      length_cumulative := by rw [hcumulative, length_runningProducts, hlength]
      layers_mem := hmem
      cumulative_eq := fun k hk => by
        rw [hcumulative, getElem?_runningProducts 1 (hlength ▸ hk), one_mul]
      descending := hcumulative ▸ (runningProducts_descend zero_le_one hmem).1
      total_eq := by
        rw [← RealArith.one_real]
        rfl
      active := ⟨c.activeQubits.elements_ascending.imp Nat.ne_of_lt,
        fun q => Circuit.mem_activeQubits_iff⟩
      contributions := fun k layer hk => ?_ }
  have hlayer := List.mem_of_getElem? hk
  refine ⟨opsAt c layer, waiting c.activeQubits.elements (opsAt c layer),
    longest d config (opsAt c layer), map_some_opsAt hc hlayer, qubits_perm hc hlayer,
    isGreatest_longest hcalibrated hvalid (opsAt_ne_nil hc hlayer), ?_⟩
  rw [hlayers, List.getElem?_map, hk, Option.map_some, layerProbability_eq]

/-- Three qubits in a line, of which the second was not measured. -/
noncomputable def measuredLine : Descriptor ℝ :=
  { name := "line"
    numQubits := 3
    couplingMap := [[0, 1], [1, 2]]
    nativeGates := ["h", "cx"]
    sites := [⟨(2 : Nat), 1, ((4 : Nat) : ℝ)⁻¹⟩, ⟨0, 0, 0⟩, ⟨1, 1, 0⟩]
    operations := [⟨"cx", (2 : Nat), ((2 : Nat) : ℝ)⁻¹, 2⟩] }

noncomputable def assumedValues : Config ℝ :=
  ⟨1, ((2 : Nat) : ℝ)⁻¹, 1, (2 : Nat), (3 : Nat), 1, 1, ((8 : Nat) : ℝ)⁻¹⟩

/-- A circuit that leaves the last qubit alone. -/
def measuredPair : Circuit ℝ :=
  { numQubits := 3
    numClbits := 1
    ops :=
      [{ kind := .gate .h, qubits := [0] }, { kind := .gate .cx, qubits := [0, 1] },
        { kind := .gate .measure, qubits := [1], clbits := [0] }] }

theorem estimate_measuredPair_plausible :
    ∃ d, Device.ofDescriptor measuredLine = .ok d ∧ measuredPair.depth = 3 ∧
      (estimate d assumedValues measuredPair).Plausible d assumedValues measuredPair := by
  have hvalid : measuredLine.Valid :=
    { name := by decide
      numQubits := by decide
      pairs := by decide
      natives_ne_nil := by decide
      natives_named := by decide
      sites := by
        rw [measuredLine]
        simp only [List.forall_mem_cons]
        refine ⟨⟨?_, ?_, ?_, ?_⟩, ⟨?_, ?_, ?_, ?_⟩, ⟨?_, ?_, ?_, ?_⟩, ?_⟩ <;> norm_num
      operations := by
        rw [measuredLine]
        simp only [List.forall_mem_cons]
        refine ⟨⟨by decide, ?_, ?_, ?_, ?_⟩, ?_⟩ <;> norm_num }
  obtain ⟨d, hd, -⟩ := Device.exists_ofDescriptor hvalid (.inr rfl) (by decide) rfl rfl
  have hconfig : assumedValues.invalid? = none := by
    refine Config.invalid?_eq_none_iff.mpr ⟨?_, ?_, ?_, ?_, ?_, ?_, ?_, ?_⟩ <;>
      norm_num [assumedValues]
  have hc : measuredPair.WellFormed := by
    unfold Circuit.WellFormed
    decide
  exact ⟨d, hd, by decide, estimate_plausible (.inl ⟨_, hd⟩) hconfig hc⟩

end Success

end QuantumCompiler
