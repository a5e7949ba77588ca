import QuantumCompiler.Layout.Interaction

/-!
# Exact search

Logical qubits are placed in ascending order, each on the physical qubits in ascending order, so
placements come up in lexicographic order.  A branch is left as soon as its cost, with every
interaction that is still open counted at distance one, cannot beat the best placement known.
The best placement known at the start bounds the search from the outset; a placement of the same
cost replaces it only if it is lexicographically smaller.  The search ends when a number of
nodes has been visited.
-/

namespace QuantumCompiler.Search

/-- What does not change during a search. -/
structure Problem where
  /-- Interactions of the logical qubits. -/
  graph : InteractionGraph
  /-- Coupling of the physical qubits. -/
  coupling : CouplingMap
  /-- The physical qubits in order. -/
  sites : List Nat
  /-- Weight of the interactions that are still open when a number of qubits is placed. -/
  rest : Array Nat
  /-- Number of nodes to visit, at most. -/
  budget : Nat

/-- The best placement known. -/
structure Incumbent where
  /-- Its physical qubits. -/
  best : Array Nat
  /-- Its cost. -/
  cost : Nat
  /-- Number of nodes visited. -/
  nodes : Nat
  /-- Whether it was found by the search itself.  Any later placement is then lexicographically
  larger. -/
  improved : Bool

/-- The weight of the interactions with a qubit that is not among the first ones. -/
def openWeight (g : InteractionGraph) (placed : Nat) : Nat :=
  sumOf (·.weight) (g.edges.filter fun e => placed ≤ max e.a e.b)

/-- The problem of placing the qubits of a graph. -/
def Problem.of (graph : InteractionGraph) (coupling : CouplingMap) (budget : Nat) : Problem :=
  { graph, coupling, budget
    sites := List.range coupling.size
    rest := ((List.range (graph.numQubits + 1)).map (openWeight graph)).toArray }

/-- Compares a placement that agreed with the incumbent so far after one more qubit. -/
def refine (s : Incumbent) (lex : Ordering) (logical physical : Nat) : Ordering :=
  if lex == .eq then compare physical (s.best.getD logical 0) else lex

/-- Whether a branch can be left: its bound is above the best cost, or equal to it and the
branch comes later in the lexicographic order. -/
def hopeless (s : Incumbent) (bound : Nat) (lex : Ordering) : Bool :=
  s.cost < bound || (bound == s.cost && (s.improved || lex == .gt))

/-- Takes a complete placement if it is better than the incumbent. -/
def conclude (s : Incumbent) (placed : Array Nat) (cost : Nat) (lex : Ordering) : Incumbent :=
  if cost < s.cost || (cost == s.cost && lex == .lt && !s.improved) then
    { s with best := placed, cost, improved := true }
  else s

/-- Visits the placements of a number of further qubits.  Given are the places so far with their
cost, and how they compare with those of the incumbent. -/
def visit (p : Problem) : Nat → Array Nat → Nat → Ordering → Incumbent → Incumbent
  | 0, placed, cost, lex, s =>
    if p.budget ≤ s.nodes then s else conclude { s with nodes := s.nodes + 1 } placed cost lex
  | more + 1, placed, cost, lex, s =>
    if p.budget ≤ s.nodes then s
    else
      p.sites.foldl
        (fun s q =>
          if placed.contains q then s
          else
            match p.graph.localCost? p.coupling (fun k => placed[k]?) placed.size q with
            | none => s
            | some c =>
              let lex := refine s lex placed.size q
              if hopeless s (cost + c + p.rest.getD (placed.size + 1) 0) lex then s
              else visit p more (placed.push q) (cost + c) lex s)
        { s with nodes := s.nodes + 1 }

/-- The best placement found from a known one of known cost, within a budget.  A budget of zero
leaves the known one as it is. -/
def search (g : InteractionGraph) (m : CouplingMap) (budget : Nat) (known : Array Nat)
    (cost : Nat) : Incumbent :=
  visit (Problem.of g m budget) known.size #[] 0 .eq ⟨known, cost, 0, false⟩

end QuantumCompiler.Search
