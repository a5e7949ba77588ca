import QuantumCompiler.Proofs.Executable
import QuantumCompiler.Proofs.Route.Checked

/-!
# Checking a circuit with every access checked

The check of a compiled circuit reads the qubits of operations, the parameters
of shuttles, the distances of a coupling map, and a table of zones, which
shuttles change.  The checked steps give no result if one of these is missing.

* `obstacle_eq`: an operation by itself is checked without a condition, since
  its qubits are compared with the device before distances are read.
* `trackZones_eq`: on a well-formed operation within the table of zones nothing
  is missing, and the table keeps its size.
* `firstViolation_eq` follows a list of operations with that invariant, and
  `violation_eq` is a circuit.
-/

namespace QuantumCompiler.Checked

variable {α β : Type}

/-- Whether two qubits are coupled.  Qubits that do not exist are not. -/
def adjacent (m : CouplingMap) (a b : Nat) : Option Bool :=
  if a < m.size ∧ b < m.size then (distance m a b).map (· == some 1) else some false

/-- The obstacle in the number of qubits of a gate, or in the two that it has. -/
def couplingObstacle (d : Device β) (op : Operation α) : Option (Option Obstacle) :=
  if 2 < op.arity then some (some (.tooWide op.arity))
  else if op.arity = 2 then do
    let a ← op.qubits[0]?
    let b ← op.qubits[1]?
    (adjacent d.coupling a b).map fun coupled => if coupled then none else some (.notCoupled a b)
  else some none

/-- The obstacle in an operation apart from zones. -/
def obstacle (d : Device β) (op : Operation α) : Option (Option Obstacle) :=
  if !d.isNative op.kind then some (some (.notNative d.name d.natives.text))
  else
    match Executable.qubitObstacle? d.numQubits [] op.qubits with
    | some o => some (some o)
    | none =>
      if op.isBarrier then some none else couplingObstacle d op

/-- The zone of every qubit at rest. -/
def restingZones (d : Device β) : Option (Array Nat) :=
  ((List.range d.numQubits).mapM (zoneOf d)).map List.toArray

section Zones

variable [RealArith α]

/-- The zones after a shuttle. -/
def shuttle (d : Device β) (zones : Array Nat) (op : Operation α) :
    Option (Except Obstacle (Array Nat)) := do
  let q ← op.qubits[0]?
  let ends ← op.zones?
  let zone ← zones[q]?
  if ends.1 != zone then some (.error (.wrongZone q zone ends.1))
  else if d.zones ≤ ends.2 then some (.error (.zoneOutOfBounds ends.2))
  else (write zones q ends.2).map .ok

/-- The zones after an operation that moves nothing. -/
def meeting (zones : Array Nat) (op : Operation α) : Option (Except Obstacle (Array Nat)) :=
  if !op.isBarrier && op.arity == 2 then do
    let a ← op.qubits[0]?
    let b ← op.qubits[1]?
    let zoneA ← zones[a]?
    let zoneB ← zones[b]?
    some (if zoneA == zoneB then .ok zones else .error (.zonesDiffer a b))
  else some (.ok zones)

/-- The zones after an operation. -/
def trackZones (d : Device β) (zones : Array Nat) (op : Operation α) :
    Option (Except Obstacle (Array Nat)) :=
  if op.isShuttle then shuttle d zones op else meeting zones op

/-- The first operation of a list that cannot be executed. -/
def firstViolation (d : Device β) :
    Nat → Array Nat → List (Operation α) → Option (Option VerificationError)
  | _, _, [] => some none
  | i, zones, op :: rest => do
    match ← obstacle d op with
    | some o => some (some (.operation i op.kind o))
    | none =>
      match ← trackZones d zones op with
      | .error o => some (some (.operation i op.kind o))
      | .ok zones => firstViolation d (i + 1) zones rest

/-- Why a circuit cannot be executed on a device as it is. -/
def violation (c : Circuit α) (d : Device β) : Option (Option VerificationError) :=
  if d.numQubits < c.numQubits then some (some (.circuit (.width c.numQubits d.name d.numQubits)))
  else do
    let zones ← restingZones d
    firstViolation d 0 zones c.ops

end Zones

/-! ## One operation by itself -/

theorem adjacent_eq (m : CouplingMap) (a b : Nat) : adjacent m a b = some (m.adjacent a b) := by
  rw [adjacent]
  split_ifs with h
  · rw [distance_eq h.1 h.2]
    rfl
  · have hnot : m.adjacent a b ≠ true := fun hadj =>
      h (CouplingMap.lt_size_of_adj (CouplingMap.adjacent_iff.mp hadj))
    rw [Bool.eq_false_iff.mpr hnot]

theorem obstacle_eq (d : Device β) (op : Operation α) :
    obstacle d op = some (Executable.obstacle? d op) := by
  rw [obstacle, Executable.obstacle?]
  by_cases hnative : (!d.isNative op.kind) = true
  · rw [if_pos hnative, if_pos hnative]
  · rw [if_neg hnative, if_neg hnative]
    cases Executable.qubitObstacle? d.numQubits [] op.qubits with
    | some o => rfl
    | none =>
      dsimp only
      by_cases hbarrier : op.isBarrier = true
      · rw [if_pos hbarrier, if_pos hbarrier]
      · rw [if_neg hbarrier, if_neg hbarrier]
        split
        · next h => simp [couplingObstacle, Operation.arity, h]
        · next a h => simp [couplingObstacle, Operation.arity, h]
        · next a b h => simp [couplingObstacle, Operation.arity, h, adjacent_eq]
        · next h0 h1 h2 =>
          have hwide : 2 < op.arity := Route.three_le_length h0 h1 h2
          rw [couplingObstacle, if_pos hwide]
          rfl

/-! ## The zones -/

theorem restingZones_eq (d : Device β) : restingZones d = some (Executable.restingZones d) := by
  have hzones :
      (List.range d.numQubits).mapM (zoneOf d) = some ((List.range d.numQubits).map d.zoneOf) :=
    mapM_eq fun q hq => zoneOf_eq (Nat.zero_lt_of_lt (List.mem_range.mp hq)) q
  rw [restingZones, hzones]
  rfl

section Zones

variable [RealArith α] {d : Device β} {zones : Array Nat} {n m : Nat} {op : Operation α}

theorem shuttle_eq (hop : op.WellFormed n m) (hzones : n ≤ zones.size) (h : op.isShuttle = true) :
    shuttle d zones op = some (Executable.trackZones d zones op) := by
  obtain ⟨q, ends, hqubits, hends⟩ := hop.shuttle_shape h
  have hq : q < zones.size := Nat.lt_of_lt_of_le (hop.qubits_lt q (by simp [hqubits])) hzones
  rw [shuttle, Executable.trackZones, if_pos h, hends, hqubits]
  simp only [List.getElem?_cons_zero, Option.bind_eq_bind, Option.bind_some,
    getElem?_eq_some_getD hq 0, write_eq hq, Option.map_some, Option.getD_some, List.headD_cons,
    Executable.zoneAt]
  split_ifs <;> rfl

/-- On a well-formed operation on qubits with zones no zone is missing. -/
theorem trackZones_eq (d : Device β) (hop : op.WellFormed n m) (hzones : n ≤ zones.size) :
    trackZones d zones op = some (Executable.trackZones d zones op) := by
  by_cases hshuttle : op.isShuttle = true
  · rw [trackZones, if_pos hshuttle, shuttle_eq hop hzones hshuttle]
  · rw [trackZones, Executable.trackZones, if_neg hshuttle, if_neg hshuttle]
    split
    · next a b hbarrier hqubits =>
      have ha : a < zones.size := Nat.lt_of_lt_of_le (hop.qubits_lt a (by simp [hqubits])) hzones
      have hb : b < zones.size := Nat.lt_of_lt_of_le (hop.qubits_lt b (by simp [hqubits])) hzones
      rw [meeting, if_pos (by simp [hbarrier, Operation.arity, hqubits]), hqubits]
      simp only [List.getElem?_cons_zero, List.getElem?_cons_succ, Option.bind_eq_bind,
        Option.bind_some, getElem?_eq_some_getD ha 0, getElem?_eq_some_getD hb 0]
      rfl
    · next hnot =>
      have hnarrow : ¬ ((!op.isBarrier && op.arity == 2) = true) := by
        intro h
        simp only [Bool.and_eq_true, Bool.not_eq_true', beq_iff_eq] at h
        obtain ⟨a, b, hqubits⟩ := List.length_eq_two.mp h.2
        exact hnot a b h.1 hqubits
      rw [meeting, if_neg hnarrow]

/-- Shuttles change the zones of qubits, but not for how many there is one. -/
theorem size_of_trackZones {zones' : Array Nat}
    (h : Executable.trackZones d zones op = .ok zones') : zones'.size = zones.size := by
  rw [Executable.trackZones] at h
  split at h
  · dsimp only at h
    split_ifs at h
    cases h
    simp
  · split at h
    · split_ifs at h
      cases h
      rfl
    · cases h
      rfl

/-! ## A circuit -/

theorem firstViolation_eq {ops : List (Operation α)} (hops : ∀ op ∈ ops, op.WellFormed n m)
    (hzones : n ≤ zones.size) (i : Nat) :
    firstViolation d i zones ops = some (Executable.firstViolation? d i zones ops) := by
  induction ops generalizing i zones with
  | nil => rfl
  | cons op rest ih =>
    obtain ⟨hop, hrest⟩ := List.forall_mem_cons.mp hops
    rw [firstViolation, Executable.firstViolation?, obstacle_eq]
    cases Executable.obstacle? d op with
    | some o => rfl
    | none =>
      simp only [Option.bind_eq_bind, Option.bind_some, trackZones_eq d hop hzones]
      cases htrack : Executable.trackZones d zones op with
      | error o => rfl
      | ok zones' => exact ih hrest (size_of_trackZones htrack ▸ hzones) (i + 1)

/-- The check of a well-formed circuit misses nothing. -/
theorem violation_eq {c : Circuit α} (hc : c.WellFormed) (d : Device β) :
    violation c d = some (Executable.violation? c d) := by
  rw [violation, Executable.violation?]
  split_ifs with hwidth
  · rfl
  · rw [restingZones_eq]
    have hsize := Executable.size_restingZones d
    exact firstViolation_eq hc (by omega) 0

end Zones

end QuantumCompiler.Checked
