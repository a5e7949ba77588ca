import QuantumCompiler.Circuit.Basic
import QuantumCompiler.Device.Coupling
import QuantumCompiler.Layout.Choice

/-!
# Interactions between logical qubits

Two qubits interact if some operation other than a barrier acts on both of them.  The
interaction graph lists every such pair once, in ascending order, with the number of those
operations as its weight.  The cost of a placement is the sum of weights times distances.
-/

namespace QuantumCompiler

/-- A pair of qubits with the number of operations on both. -/
structure Interaction where
  /-- The smaller qubit. -/
  a : Nat
  /-- The larger qubit. -/
  b : Nat
  /-- Number of operations on both. -/
  weight : Nat
  deriving Repr, DecidableEq

namespace Interaction

/-- The pairs of a list of qubits, each as smaller and larger one. -/
def pairs : List Nat → List (Nat × Nat)
  | [] => []
  | q :: rest => rest.map (fun r => (min q r, max q r)) ++ pairs rest

/-- Counts one more operation on a pair in a list that is sorted by pairs. -/
def count (p : Nat × Nat) : List Interaction → List Interaction
  | [] => [⟨p.1, p.2, 1⟩]
  | e :: rest =>
    if p.1 < e.a || (p.1 == e.a && p.2 < e.b) then ⟨p.1, p.2, 1⟩ :: e :: rest
    else if p.1 == e.a && p.2 == e.b then { e with weight := e.weight + 1 } :: rest
    else e :: count p rest

/-- All pairs of a list with their numbers of occurrences, in ascending order. -/
def tally (ps : List (Nat × Nat)) : List Interaction := ps.foldr count []

/-- The other qubit of a pair, with the weight. -/
def other? (e : Interaction) (q : Nat) : Option (Nat × Nat) :=
  if e.a == q then some (e.b, e.weight) else if e.b == q then some (e.a, e.weight) else none

end Interaction

/-- The interactions of the qubits of a circuit. -/
structure InteractionGraph where
  /-- Number of qubits. -/
  numQubits : Nat
  /-- Interacting pairs in ascending order. -/
  edges : List Interaction
  /-- The partners of each qubit with their weights, in ascending order. -/
  partners : Array (List (Nat × Nat))

namespace InteractionGraph

/-- The graph with given interactions. -/
def ofEdges (numQubits : Nat) (edges : List Interaction) : InteractionGraph :=
  { numQubits, edges
    partners := ((List.range numQubits).map fun q => edges.filterMap (·.other? q)).toArray }

/-- The interactions of a circuit. -/
def ofCircuit {α : Type} (c : Circuit α) : InteractionGraph :=
  ofEdges c.numQubits
    (Interaction.tally (c.ops.flatMap fun op =>
      if op.isBarrier then [] else Interaction.pairs op.qubits))

/-- The sum of all weights, below which no cost can be. -/
def total (g : InteractionGraph) : Nat := sumOf (·.weight) g.edges

/-- The partners of a qubit with their weights. -/
def partnersOf (g : InteractionGraph) (q : Nat) : List (Nat × Nat) := g.partners.getD q []

/-- Whether a qubit interacts with any other. -/
def interacting (g : InteractionGraph) (q : Nat) : Bool := !(g.partnersOf q).isEmpty

/-- The sum of the weights of a qubit. -/
def degree (g : InteractionGraph) (q : Nat) : Nat := sumOf (·.2) (g.partnersOf q)

/-- The groups of qubits that are connected by interactions, each in ascending order, largest
group first.  Groups of the same size are in order of their smallest qubits. -/
def components (g : InteractionGraph) : List (List Nat) :=
  let smallest := (Tables.ofEdges g.numQubits (g.edges.map fun e => (e.a, e.b))).components
  let label (q : Nat) : Nat := smallest.getD q g.numQubits
  let qubits := List.range g.numQubits
  let roots := qubits.filter fun q => g.interacting q && label q == q
  (roots.map fun root => qubits.filter (label · == root)).mergeSort fun s t => t.length ≤ s.length

/-! ## Costs -/

/-- The sum of weights times distances over a list of interactions, if all pairs are placed and
connected. -/
def costOver (m : CouplingMap) (place : Nat → Option Nat) : List Interaction → Option Nat
  | [] => some 0
  | e :: rest =>
    match place e.a, place e.b with
    | some p, some q =>
      match m.distance? p q, costOver m place rest with
      | some d, some cost => some (e.weight * d + cost)
      | _, _ => none
    | _, _ => none

/-- The cost of a placement, if all interacting pairs are placed and connected. -/
def cost? (g : InteractionGraph) (m : CouplingMap) (place : Nat → Option Nat) : Option Nat :=
  costOver m place g.edges

/-- The cost of the interactions of one qubit with a list of partners if it were put on a
physical qubit.  Partners that are not placed are passed over. -/
def partnersCost (m : CouplingMap) (place : Nat → Option Nat) (physical : Nat) :
    List (Nat × Nat) → Option Nat
  | [] => some 0
  | (partner, weight) :: rest =>
    match place partner with
    | none => partnersCost m place physical rest
    | some q =>
      match m.distance? physical q, partnersCost m place physical rest with
      | some d, some cost => some (weight * d + cost)
      | _, _ => none

/-- The cost of the interactions of one qubit if it were put on a physical qubit, unless a
partner is out of reach. -/
def localCost? (g : InteractionGraph) (m : CouplingMap) (place : Nat → Option Nat)
    (qubit physical : Nat) : Option Nat :=
  partnersCost m place physical (g.partnersOf qubit)

end InteractionGraph

end QuantumCompiler
