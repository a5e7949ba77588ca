/-!
# Coupling maps

A coupling map says which pairs of physical qubits can interact directly.  Coupling is
undirected.  The map is given by its edges; neighbours, distances and connected components are
tables calculated once from the edges.

* `CouplingMap.ofEdges` refuses edges out of bounds and loops, and keeps the first of several
  equal edges.
* `Tables.distancesFrom` searches level by level from one qubit.
* `CouplingMap.shortestPath` walks from one qubit to another and always takes the smallest
  neighbour that is one step closer.
-/

namespace QuantumCompiler

/-- A pair of coupled qubits, in the order in which it was given. -/
abbrev Edge := Nat × Nat

/-- Whether two edges join the same qubits. -/
def Edge.same (e f : Edge) : Bool := e == f || e == (f.2, f.1)

/-- Why edges make no coupling map. -/
inductive CouplingError where
  /-- An edge names a qubit that the device does not have. -/
  | outOfBounds (a b size : Nat)
  /-- An edge joins a qubit with itself. -/
  | loop (qubit : Nat)
  deriving Repr, DecidableEq

/-- The wording of a refused edge. -/
def CouplingError.message : CouplingError → String
  | outOfBounds a b size => s!"coupling ({a},{b}) out of bounds (device has {size} qubits)"
  | loop q => s!"qubit {q} cannot be coupled with itself"

/-- The reason to refuse an edge. -/
def Edge.error? (size : Nat) (e : Edge) : Option CouplingError :=
  if size ≤ e.1 || size ≤ e.2 then some (.outOfBounds e.1 e.2 size)
  else if e.1 == e.2 then some (.loop e.1)
  else none

/-- The edges without those that repeat an earlier one. -/
def Edge.keepFirst : List Edge → List Edge
  | [] => []
  | e :: rest => e :: (keepFirst rest).filter (!same e ·)

/-- What is calculated from the edges of a coupling map. -/
structure Tables where
  /-- Neighbours of each qubit in ascending order. -/
  neighbours : Array (List Nat)
  /-- Distances between any two qubits, where there is a path. -/
  distances : Array (Array (Option Nat))
  /-- Smallest qubit that is connected with each qubit. -/
  components : Array Nat

namespace Tables

/-- The qubits that edges join with a given one, in ascending order. -/
def neighboursOf (edges : List Edge) (q : Nat) : List Nat :=
  (edges.filterMap fun e =>
    if e.1 == q then some e.2 else if e.2 == q then some e.1 else none).mergeSort

/-- Gives a distance to a qubit that has none, and remembers the qubit. -/
def reach (distance : Nat) (found : Array (Option Nat) × List Nat) (q : Nat) :
    Array (Option Nat) × List Nat :=
  if found.1.getD q none == none then (found.1.setIfInBounds q (some distance), q :: found.2)
  else found

/-- Gives the next distance to all neighbours of a level that have none, then goes on from
those. -/
def spread (neighbours : Array (List Nat)) :
    Nat → Nat → List Nat → Array (Option Nat) → Array (Option Nat)
  | 0, _, _, row => row
  | fuel + 1, distance, level, row =>
    let (row, next) := level.foldl
      (fun found q => (neighbours.getD q []).foldl (reach (distance + 1)) found) (row, [])
    if next.isEmpty then row else spread neighbours fuel (distance + 1) next row

/-- Distances from a qubit to all others.  There are at most as many levels as qubits. -/
def distancesFrom (size : Nat) (neighbours : Array (List Nat)) (source : Nat) :
    Array (Option Nat) :=
  spread neighbours size 0 [source] ((Array.replicate size none).setIfInBounds source (some 0))

/-- The smallest qubit at a finite distance. -/
def firstReached (size : Nat) (row : Array (Option Nat)) : Nat :=
  ((List.range size).find? fun q => (row.getD q none).isSome).getD size

/-- All tables of a coupling map. -/
def ofEdges (size : Nat) (edges : List Edge) : Tables :=
  let neighbours := ((List.range size).map (neighboursOf edges)).toArray
  let distances := ((List.range size).map (distancesFrom size neighbours)).toArray
  { neighbours, distances, components := distances.map (firstReached size) }

end Tables

/-- Which pairs of physical qubits can interact. -/
structure CouplingMap where
  /-- Number of qubits. -/
  size : Nat
  /-- Edges, each pair of qubits once. -/
  edges : List Edge
  /-- Neighbours, distances and components. -/
  tables : Tables
  /-- Edges join two different qubits of the device. -/
  edges_valid : ∀ e ∈ edges, e.error? size = none
  /-- No pair of qubits is listed twice. -/
  edges_distinct : edges.Pairwise fun e f => e.same f = false
  /-- The tables are those of the edges. -/
  tables_eq : tables = Tables.ofEdges size edges

theorem Edge.mem_of_mem_keepFirst {e : Edge} {edges : List Edge} (h : e ∈ keepFirst edges) :
    e ∈ edges := by
  induction edges with
  | nil => simp [keepFirst] at h
  | cons f rest ih =>
    rw [keepFirst, List.mem_cons] at h
    rcases h with h | h
    · exact h ▸ List.mem_cons_self
    · exact List.mem_cons_of_mem _ (ih (List.mem_filter.mp h).1)

theorem Edge.keepFirst_pairwise (edges : List Edge) :
    (keepFirst edges).Pairwise fun e f => e.same f = false := by
  induction edges with
  | nil => exact List.Pairwise.nil
  | cons e rest ih =>
    rw [keepFirst, List.pairwise_cons]
    refine ⟨fun f hf => ?_, ih.filter _⟩
    simpa using (List.mem_filter.mp hf).2

namespace CouplingMap

/-- The coupling map with given edges. -/
def ofEdges (size : Nat) (edges : List Edge) : Except CouplingError CouplingMap :=
  match h : edges.findSome? (Edge.error? size) with
  | some e => .error e
  | none => .ok
    { size
      edges := Edge.keepFirst edges
      tables := Tables.ofEdges size (Edge.keepFirst edges)
      edges_valid := fun e he => List.findSome?_eq_none_iff.mp h e (Edge.mem_of_mem_keepFirst he)
      edges_distinct := Edge.keepFirst_pairwise edges
      tables_eq := rfl }

theorem size_of_ofEdges {size : Nat} {edges : List Edge} {m : CouplingMap}
    (h : ofEdges size edges = .ok m) : m.size = size := by
  unfold ofEdges at h
  split at h
  · cases h
  · cases h; rfl

/-- The qubits coupled with a given one, in ascending order. -/
def neighbours (m : CouplingMap) (q : Nat) : List Nat := m.tables.neighbours.getD q []

/-- Number of edges on a shortest path between two qubits, if they are connected. -/
def distance? (m : CouplingMap) (a b : Nat) : Option Nat :=
  (m.tables.distances.getD a #[]).getD b none

/-- Whether two qubits are coupled. -/
def adjacent (m : CouplingMap) (a b : Nat) : Bool := m.distance? a b == some 1

/-- The smallest qubit that is connected with a given one. -/
def component (m : CouplingMap) (q : Nat) : Nat := m.tables.components.getD q m.size

/-- Whether there is a path between two qubits. -/
def connected (m : CouplingMap) (a b : Nat) : Bool := m.component a == m.component b

/-- The connected components, each in ascending order, by their smallest qubits. -/
def components (m : CouplingMap) : List (List Nat) :=
  let qubits := List.range m.size
  (qubits.filter fun q => m.component q == q).map fun first =>
    qubits.filter (m.component · == first)

/-- A walk of a given number of steps towards a target: each step goes to the smallest neighbour
that is one step closer. -/
def walk (m : CouplingMap) (target : Nat) : Nat → Nat → List Nat
  | 0, q => [q]
  | steps + 1, q =>
    match (m.neighbours q).find? fun r => m.distance? r target == some steps with
    | some r => q :: m.walk target steps r
    | none => [q]

/-- A shortest path between two qubits, both ends included, or `none` if they are not
connected. -/
def shortestPath? (m : CouplingMap) (a b : Nat) : Option (List Nat) :=
  (m.distance? a b).map fun steps => m.walk b steps a

end CouplingMap

end QuantumCompiler
