import QuantumCompiler.Circuit.Basic
import QuantumCompiler.Device.GateSet
import QuantumCompiler.Peephole.Rule

/-!
# One pass over a circuit

Operations are taken in order.  Each one is compared with the operations before it on its wires,
latest first: the first one it combines with takes its place, and the search ends at the first
one it cannot be moved past.  `Sweep` is the state between two operations.  Its wires list the
positions of the operations that are still there, so a removal never has to search for them.
-/

namespace QuantumCompiler.Peephole

variable {α : Type}

/-- The simplifications that are switched on. -/
structure Simplifications where
  /-- Remove pairs of gates that undo each other. -/
  cancel : Bool := false
  /-- Merge rotations about the same axis. -/
  merge : Bool := false
  /-- Remove gates that are the identity. -/
  identities : Bool := false
  /-- Look for a partner past gates that commute. -/
  commute : Bool := false
  /-- Fuse gates on one qubit into general rotations. -/
  fuse : Bool := false
  deriving Repr, DecidableEq

/-- The simplifications whose results are native.  Only fusion brings in a kind of its own. -/
def Simplifications.within (r : Simplifications) (natives : GateSet) : Simplifications :=
  { r with fuse := r.fuse && natives.contains (.gate .u) }

/-- What two operations become together. -/
inductive Combination (α : Type) where
  /-- Nothing is left. -/
  | eliminated
  /-- One operation takes the place of both. -/
  | merged (op : Operation α)

/-- The wires that an operation occupies in a circuit of given width.  A barrier without qubits
occupies all of them. -/
def wiresOf (width : Nat) (op : Operation α) : List Nat :=
  if op.isBarrier && op.qubits.isEmpty then List.range width else op.qubits

/-- The state of a pass. -/
structure Sweep (α : Type) where
  /-- Operations emitted so far, with gaps where some were removed. -/
  slots : Array (Option (Operation α))
  /-- Positions of the operations on each wire, latest first. -/
  wires : Array (List Nat)
  /-- Number of simplifications made. -/
  fired : Nat

namespace Sweep

/-- The state before the first operation. -/
def start (width : Nat) : Sweep α := ⟨#[], Array.replicate width [], 0⟩

/-- The positions on a wire, latest first. -/
def wire (s : Sweep α) (q : Nat) : List Nat := s.wires.getD q []

/-- The operation at a position, unless it was removed. -/
def at? (s : Sweep α) (i : Nat) : Option (Operation α) := s.slots.getD i none

/-- The operations that are left. -/
def ops (s : Sweep α) : List (Operation α) := s.slots.toList.filterMap fun op? => op?

/-- Adds an operation at the end. -/
def emit (s : Sweep α) (op : Operation α) : Sweep α :=
  { s with
    slots := s.slots.push (some op)
    wires :=
      (wiresOf s.wires.size op).foldl (fun wires q => wires.modify q (s.slots.size :: ·))
        s.wires }

/-- Takes the operation at a position out. -/
def remove (s : Sweep α) (i : Nat) : Sweep α :=
  match s.at? i with
  | none => s
  | some op =>
    { s with
      slots := s.slots.setIfInBounds i none
      wires :=
        (wiresOf s.wires.size op).foldl (fun wires q => wires.modify q (·.erase i)) s.wires }

/-- Puts another operation at a position. -/
def replace (s : Sweep α) (i : Nat) (op : Operation α) : Sweep α :=
  { s with slots := s.slots.setIfInBounds i (some op) }

/-- Applies what two operations become to the position of the earlier one, and counts the
simplification. -/
def apply (s : Sweep α) (i : Nat) : Combination α → Sweep α
  | .eliminated => { s.remove i with fired := s.fired + 1 }
  | .merged op => { s.replace i op with fired := s.fired + 1 }

section Search

variable [RealArith α]

/-- What two operations become, where the second follows the first.  Cancelling goes before
merging, and merging before fusing; a result that is the identity is removed as well. -/
def combine? (r : Simplifications) (a b : Operation α) : Option (Combination α) :=
  if r.cancel && isInversePair a b then some .eliminated
  else
    match (if r.merge then merge? a b else none) <|> (if r.fuse then fuse? a b else none) with
    | none => none
    | some op => if r.identities && isIdentity op then some .eliminated else some (.merged op)

/-- Whether an operation can be moved past an earlier one. -/
def passes (r : Simplifications) (earlier op : Operation α) : Bool :=
  r.commute && Peephole.commute earlier op

/-- The latest operation on a wire that an operation combines with, if it can be moved back to
it. -/
def search (r : Simplifications) (s : Sweep α) (op : Operation α) :
    List Nat → Option (Nat × Combination α)
  | [] => none
  | i :: rest =>
    match s.at? i with
    | none => none
    | some earlier =>
      match combine? r earlier op with
      | some c => some (i, c)
      | none => if passes r earlier op then s.search r op rest else none

/-- Whether an operation can be moved back along a wire to a given position. -/
def clearBack (r : Simplifications) (s : Sweep α) (op : Operation α) (target : Nat) :
    List Nat → Bool
  | [] => false
  | i :: rest =>
    i == target ||
      match s.at? i with
      | none => false
      | some earlier => passes r earlier op && s.clearBack r op target rest

/-- The earlier operation that a gate combines with: it is found on the first wire of the gate,
and the other wires must be clear back to it. -/
def partner? (r : Simplifications) (s : Sweep α) (op : Operation α) :
    Option (Nat × Combination α) :=
  if !op.isUnitary then none
  else
    match op.qubits with
    | [] => none
    | q :: others =>
      match s.search r op (s.wire q) with
      | none => none
      | some (i, c) =>
        if others.all fun p => s.clearBack r op i (s.wire p) then some (i, c) else none

/-- Takes the next operation. -/
def step (r : Simplifications) (s : Sweep α) (op : Operation α) : Sweep α :=
  if r.identities && isIdentity op then { s with fired := s.fired + 1 }
  else
    match s.partner? r op with
    | some (i, c) => s.apply i c
    | none => s.emit op

/-- Takes all operations of a list. -/
def run (r : Simplifications) (s : Sweep α) (ops : List (Operation α)) : Sweep α :=
  ops.foldl (step r) s

end Search

end Sweep

end QuantumCompiler.Peephole
