import QuantumCompiler.Device.Coupling

/-!
# Standard topologies

The usual shapes of coupling maps at any size.
-/

namespace QuantumCompiler

/-- A shape of coupling map with its size. -/
inductive Topology where
  /-- A chain. -/
  | linear (n : Nat)
  /-- A chain whose ends are coupled. -/
  | ring (n : Nat)
  /-- Qubit 0 coupled with all others. -/
  | star (n : Nat)
  /-- A square lattice numbered row by row. -/
  | grid (rows columns : Nat)
  /-- Every pair coupled. -/
  | full (n : Nat)
  deriving Repr, DecidableEq

namespace Topology

/-- Number of qubits. -/
def size : Topology → Nat
  | linear n | ring n | star n | full n => n
  | grid rows columns => rows * columns

/-- The edges of a chain. -/
def chain (n : Nat) : List Edge := (List.range (n - 1)).map fun i => (i, i + 1)

/-- The edges from one place of a lattice to the right and down. -/
def gridEdgesAt (rows columns r c : Nat) : List Edge :=
  let q := r * columns + c
  (if c + 1 < columns then [(q, q + 1)] else []) ++
    (if r + 1 < rows then [(q, q + columns)] else [])

/-- Edges in order. -/
def edges : Topology → List Edge
  | linear n => chain n
  | ring n => chain n ++ (if 2 < n then [(n - 1, 0)] else [])
  | star n => (List.range (n - 1)).map fun i => (0, i + 1)
  | grid rows columns =>
    (List.range rows).flatMap fun r => (List.range columns).flatMap (gridEdgesAt rows columns r)
  | full n => (List.range n).flatMap fun i => (List.range (n - 1 - i)).map fun k => (i, i + 1 + k)

/-- The coupling map of a topology. -/
def coupling (t : Topology) : Except CouplingError CouplingMap :=
  CouplingMap.ofEdges t.size t.edges

end Topology

end QuantumCompiler
