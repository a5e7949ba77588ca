import QuantumCompiler.Circuit.Basic
import QuantumCompiler.Device.Basic

/-!
# Executable circuits

A circuit can be executed on a device as it is if it is no wider than the device, and every
operation is native, acts on distinct qubits of the device, at most two of them, which are
coupled and in the same zone at that time.  Shuttles move qubits between zones: each one starts
in the zone where its qubit is, and ends in a zone of the device.  `Executable.violation?`
reports the first operation that breaks a rule.
-/

namespace QuantumCompiler

/-- Why a circuit cannot be executed. -/
inductive Obstacle where
  /-- The device has too few qubits. -/
  | width (needed : Nat) (device : String) (available : Nat)
  /-- The kind is not native. -/
  | notNative (device natives : String)
  /-- The device has no such qubit. -/
  | outOfBounds (qubit : Nat)
  /-- A qubit is listed twice. -/
  | repeated (qubit : Nat)
  /-- The operation acts on more than two qubits. -/
  | tooWide (arity : Nat)
  /-- The two qubits are not coupled. -/
  | notCoupled (a b : Nat)
  /-- A shuttle starts from a zone where its qubit is not. -/
  | wrongZone (qubit zone source : Nat)
  /-- A shuttle ends in a zone that the device does not have. -/
  | zoneOutOfBounds (zone : Nat)
  /-- The two qubits are in different zones. -/
  | zonesDiffer (a b : Nat)
  deriving Repr, DecidableEq

/-- The wording of an obstacle. -/
def Obstacle.message : Obstacle → String
  | width needed device available =>
    s!"circuit has {needed} qubits, but device {device} has only {available}"
  | notNative device natives => s!"not native to device {device} (natives {natives})"
  | outOfBounds q => s!"qubit {q} out of bounds"
  | repeated q => s!"qubit {q} used more than once"
  | tooWide arity => s!"acts on {arity} qubits"
  | notCoupled a b => s!"qubits {a} and {b} are not coupled"
  | wrongZone q zone source => s!"qubit {q} is in zone {zone}, not {source}"
  | zoneOutOfBounds zone => s!"zone {zone} out of bounds"
  | zonesDiffer a b => s!"qubits {a} and {b} are in different zones"

/-- The first rule that a circuit breaks. -/
inductive VerificationError where
  /-- The circuit as a whole does not fit. -/
  | circuit (obstacle : Obstacle)
  /-- An operation cannot be executed. -/
  | operation (index : Nat) (kind : Kind) (obstacle : Obstacle)
  deriving DecidableEq

/-- The wording of a failed check. -/
def VerificationError.message : VerificationError → String
  | circuit obstacle => s!"verification error (operation -1, ): {obstacle.message}"
  | operation index kind obstacle =>
    s!"verification error (operation {index}, {kind.name}): {obstacle.message}"

namespace Executable

variable {α β : Type}

/-- The first qubit of a list that the device does not have or that occurs earlier in the list.
The qubits before the list are given as well. -/
def qubitObstacle? (size : Nat) : List Nat → List Nat → Option Obstacle
  | _, [] => none
  | seen, q :: rest =>
    if size ≤ q then some (.outOfBounds q)
    else if seen.contains q then some (.repeated q)
    else qubitObstacle? size (q :: seen) rest

/-- The obstacle in an operation apart from zones. -/
def obstacle? (d : Device β) (op : Operation α) : Option Obstacle :=
  if !d.isNative op.kind then some (.notNative d.name d.natives.text)
  else
    match qubitObstacle? d.numQubits [] op.qubits with
    | some o => some o
    | none =>
      if op.isBarrier then none
      else
        match op.qubits with
        | [] | [_] => none
        | [a, b] => if d.coupling.adjacent a b then none else some (.notCoupled a b)
        | qs => some (.tooWide qs.length)

/-- The zone of every qubit at rest. -/
def restingZones (d : Device β) : Array Nat := ((List.range d.numQubits).map d.zoneOf).toArray

/-- The zone of a qubit. -/
def zoneAt (zones : Array Nat) (q : Nat) : Nat := zones.getD q 0

/-- The zones after an operation, which may not be possible in the zones before it. -/
def trackZones [RealArith α] (d : Device β) (zones : Array Nat) (op : Operation α) :
    Except Obstacle (Array Nat) :=
  if op.isShuttle then
    let q := op.qubits.headD 0
    let (source, target) := op.zones?.getD (0, 0)
    if source != zoneAt zones q then .error (.wrongZone q (zoneAt zones q) source)
    else if d.zones ≤ target then .error (.zoneOutOfBounds target)
    else .ok (zones.setIfInBounds q target)
  else
    match op.isBarrier, op.qubits with
    | false, [a, b] =>
      if zoneAt zones a == zoneAt zones b then .ok zones else .error (.zonesDiffer a b)
    | _, _ => .ok zones

/-- The first operation of a list that cannot be executed; indices start at a given number. -/
def firstViolation? [RealArith α] (d : Device β) :
    Nat → Array Nat → List (Operation α) → Option VerificationError
  | _, _, [] => none
  | i, zones, op :: rest =>
    match obstacle? d op with
    | some o => some (.operation i op.kind o)
    | none =>
      match trackZones d zones op with
      | .error o => some (.operation i op.kind o)
      | .ok zones => firstViolation? d (i + 1) zones rest

/-- Why a circuit cannot be executed on a device as it is. -/
def violation? [RealArith α] (c : Circuit α) (d : Device β) : Option VerificationError :=
  if d.numQubits < c.numQubits then some (.circuit (.width c.numQubits d.name d.numQubits))
  else firstViolation? d 0 (restingZones d) c.ops

end Executable

end QuantumCompiler
