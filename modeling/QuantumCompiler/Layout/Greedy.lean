import QuantumCompiler.Layout.Basic
import QuantumCompiler.Layout.Choice
import QuantumCompiler.Layout.Interaction

/-!
# Greedy placement

A group of interacting qubits is placed in a region one qubit after the other.  The first is the
qubit with the greatest weight, on the physical qubit with the most neighbours; then always the
qubit with the strongest ties to those already placed, on the free physical qubit that costs
least.  Qubits without interactions take the lowest free physical qubits at the end.
-/

namespace QuantumCompiler.Greedy

/-- The physical qubits of a region that host nothing. -/
def freeIn (l : Layout) (region : List Nat) : List Nat :=
  region.filter fun q => l.logical? q == none

/-- The weight of the interactions of a qubit with those that are placed. -/
def tie (g : InteractionGraph) (l : Layout) (q : Nat) : Nat :=
  sumOf (fun (partner, weight) => if (l.physical? partner).isSome then weight else 0)
    (g.partnersOf q)

/-- Places the first qubit of a group. -/
def placeFirst (g : InteractionGraph) (m : CouplingMap) (group region : List Nat) (l : Layout) :
    Option Layout :=
  match firstMax? g.degree group,
    firstMax? (fun q => (m.neighbours q).length) (freeIn l region) with
  | some first, some start => some (l.place first start)
  | _, _ => none

/-- Places the next qubit of a group. -/
def placeNext (g : InteractionGraph) (m : CouplingMap) (group region : List Nat) (l : Layout) :
    Option Layout :=
  match firstMax? (tie g l) (group.filter fun q => l.physical? q == none) with
  | none => none
  | some next =>
    let costs := (freeIn l region).filterMap fun q =>
      (g.localCost? m l.physical? next q).map fun c => (q, c)
    (firstMin? (·.2) costs).map fun (q, _) => l.place next q

/-- Places a number of further qubits of a group. -/
def placeMore (g : InteractionGraph) (m : CouplingMap) (group region : List Nat) :
    Nat → Layout → Option Layout
  | 0, l => some l
  | n + 1, l => (placeNext g m group region l).bind (placeMore g m group region n)

/-- Places a group in a region. -/
def placeGroup (g : InteractionGraph) (m : CouplingMap) (group region : List Nat) (l : Layout) :
    Option Layout :=
  (placeFirst g m group region l).bind (placeMore g m group region (group.length - 1))

/-- Places groups in their regions one after the other. -/
def placeGroups (g : InteractionGraph) (m : CouplingMap) :
    List (List Nat × List Nat) → Layout → Option Layout
  | [], l => some l
  | (group, region) :: rest, l => (placeGroup g m group region l).bind (placeGroups g m rest)

/-- Places the qubits of a list that have no place on the lowest free physical qubits. -/
def placeIsolated : List Nat → Layout → Option Layout
  | [], l => some l
  | q :: rest, l =>
    if (l.physical? q).isSome then placeIsolated rest l
    else
      match (List.range l.numPhysical).find? fun p => l.logical? p == none with
      | none => none
      | some p => placeIsolated rest (l.place q p)

end QuantumCompiler.Greedy
