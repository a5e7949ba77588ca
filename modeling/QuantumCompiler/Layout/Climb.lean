import QuantumCompiler.Layout.Basic
import QuantumCompiler.Layout.Interaction

/-!
# Local improvement

The contents of two physical qubits are exchanged whenever that makes the cost smaller.  All
pairs are tried in order, in several rounds, until a round changes nothing.  The cost is kept up
to date from the interactions of the two qubits alone.
-/

namespace QuantumCompiler.Climb

/-- A placement with its cost. -/
structure State where
  /-- The placement. -/
  layout : Layout
  /-- The cost of the placement. -/
  cost : Nat

/-- Number of rounds, at most. -/
def maxRounds : Nat := 16

/-- The cost of the interactions of a logical qubit where it is; nothing for no qubit. -/
def costOf (g : InteractionGraph) (m : CouplingMap) (l : Layout) : Option Nat → Option Nat
  | none => some 0
  | some q =>
    match l.physical? q with
    | none => some 0
    | some p => g.localCost? m l.physical? q p

/-- The cost of the interactions of two logical qubits; one between the two counts twice. -/
def pairCost (g : InteractionGraph) (m : CouplingMap) (l : Layout) (a b : Option Nat) :
    Option Nat :=
  match costOf g m l a, costOf g m l b with
  | some x, some y => some (x + y)
  | _, _ => none

/-- Exchanges what two physical qubits host if that makes the cost smaller, and tells whether it
does. -/
def tryExchange (g : InteractionGraph) (m : CouplingMap) (s : State) (p q : Nat) : State × Bool :=
  let onP := s.layout.logical? p
  let onQ := s.layout.logical? q
  if !onP.any g.interacting && !onQ.any g.interacting then (s, false)
  else
    let exchanged := s.layout.exchange p q
    match pairCost g m s.layout onP onQ, pairCost g m exchanged onP onQ with
    | some before, some after =>
      if after < before then (⟨exchanged, s.cost - (before - after)⟩, true) else (s, false)
    | _, _ => (s, false)

/-- The pairs of physical qubits in order, the smaller one first. -/
def allPairs (size : Nat) : List (Nat × Nat) :=
  (List.range size).flatMap fun p => (List.range (size - 1 - p)).map fun k => (p, p + 1 + k)

/-- Tries to exchange every pair of a list, and tells whether any exchange was made. -/
def round (g : InteractionGraph) (m : CouplingMap) (pairs : List (Nat × Nat)) (s : State) :
    State × Bool :=
  pairs.foldl
    (fun (s, improved) (p, q) =>
      let (s, made) := tryExchange g m s p q
      (s, improved || made))
    (s, false)

/-- Rounds until one changes nothing, at most a given number of them. -/
def rounds (g : InteractionGraph) (m : CouplingMap) (pairs : List (Nat × Nat)) :
    Nat → State → State
  | 0, s => s
  | n + 1, s =>
    let (s, improved) := round g m pairs s
    if improved then rounds g m pairs n s else s

/-- Improves a placement of known cost. -/
def climb (g : InteractionGraph) (m : CouplingMap) (s : State) : State :=
  rounds g m (allPairs s.layout.numPhysical) maxRounds s

end QuantumCompiler.Climb
