import QuantumCompiler.Device.Basic
import QuantumCompiler.Layout.Climb
import QuantumCompiler.Layout.Greedy
import QuantumCompiler.Layout.Packing
import QuantumCompiler.Layout.Search

/-!
# Choice of a layout

`Layout.choose` finds a placement of the qubits of a circuit on a device with small cost.  The
identity is taken whenever no placement can be better.  Otherwise groups of interacting qubits
are packed into connected regions and placed greedily, the placement is improved locally, and an
exact search within a budget looks for a better one.
-/

namespace QuantumCompiler

/-- Why a circuit has no layout on a device. -/
inductive LayoutError where
  /-- The device has too few qubits. -/
  | width (needed : Nat) (device : String) (available : Nat)
  /-- The groups of interacting qubits do not fit into the connected regions. -/
  | packing (groups : List (List Nat))
  /-- A qubit found no place. -/
  | stuck
  /-- The places found make no layout. -/
  | fault (fault : Layout.Fault)
  deriving Repr, DecidableEq

/-- The wording of a failed choice. -/
def LayoutError.message : LayoutError → String
  | width needed device available =>
    s!"layout error: circuit requires {needed} qubits but device {device} has only {available}"
  | packing groups =>
    "layout error: interacting qubits " ++ Text.bracket (groups.map Text.listing) ++
      " cannot be packed into the connected regions of the device"
  | stuck => "layout error: no place for a qubit"
  | fault f => f.message

namespace Layout

/-- Number of nodes that the exact search may visit if nothing else is asked for. -/
def defaultBudget : Nat := 100000

/-- The placement of the interacting qubits before any improvement. -/
def greedy (g : InteractionGraph) (m : CouplingMap) : Except LayoutError Layout :=
  let groups := g.components
  let regions := m.components
  match Packing.pack (regions.map List.length) (groups.map List.length) with
  | none => .error (.packing groups)
  | some targets =>
    let pairs := groups.zip (targets.map fun j => regions.getD j [])
    match Greedy.placeGroups g m pairs (empty g.numQubits m.size) with
    | some l => .ok l
    | none => .error .stuck

/-- A placement of all qubits with its cost, before the exact search. -/
def heuristic (g : InteractionGraph) (m : CouplingMap) : Except LayoutError (Array Nat × Nat) :=
  match greedy g m with
  | .error e => .error e
  | .ok l =>
    match g.cost? m l.physical? with
    | none => .error .stuck
    | some cost =>
      let improved := Climb.climb g m ⟨l, cost⟩
      match Greedy.placeIsolated (List.range g.numQubits) improved.layout with
      | none => .error .stuck
      | some full => .ok (full.l2p.map (·.getD 0), improved.cost)

/-- The layout of a graph of interactions on a coupling map. -/
def ofGraph (g : InteractionGraph) (m : CouplingMap) (budget : Nat) : Except LayoutError Layout :=
  let start := identity g.numQubits m.size
  if g.cost? m start.physical? == some g.total then .ok start
  else
    match heuristic g m with
    | .error e => .error e
    | .ok (known, cost) =>
      match ofPhysicals (Search.search g m budget known cost).best.toList m.size with
      | .ok l => .ok l
      | .error f => .error (.fault f)

/-- A layout of a circuit on a device. -/
def choose {α β : Type} (budget : Nat) (c : Circuit α) (d : Device β) :
    Except LayoutError Layout :=
  if d.numQubits < c.numQubits then .error (.width c.numQubits d.name d.numQubits)
  else ofGraph (InteractionGraph.ofCircuit c) d.coupling budget

end Layout

end QuantumCompiler
