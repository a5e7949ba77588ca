import QuantumCompiler.Layout.Choice

/-!
# Packing groups into regions

Every group of interacting qubits goes into one connected region of the device, and no region
takes more qubits than it has.  Best fit is tried first; if it fails, all ways are tried.
-/

namespace QuantumCompiler.Packing

/-- The free places left in each region after one group went into a region. -/
def fill (free : List Nat) (region size : Nat) : List Nat := free.modify region (· - size)

/-- The regions with enough room for a group. -/
def fitting (free : List Nat) (size : Nat) : List Nat :=
  (List.range free.length).filter fun j => size ≤ free.getD j 0

/-- A region for each group: the one with the least room that is enough. -/
def bestFit : List Nat → List Nat → Option (List Nat)
  | _, [] => some []
  | free, size :: rest =>
    match firstMin? (fun j => free.getD j 0) (fitting free size) with
    | none => none
    | some j => (bestFit (fill free j size) rest).map (j :: ·)

/-- The regions with enough room for a group, of which only the first one with the same room
counts. -/
def distinctFitting (free : List Nat) (size : Nat) : List Nat :=
  (fitting free size).filter fun j => !(free.take j).contains (free.getD j 0)

/-- A region for each group, found by trying all ways.  Regions with the same room are
interchangeable. -/
def exhaustive : List Nat → List Nat → Option (List Nat)
  | _, [] => some []
  | free, size :: rest =>
    (distinctFitting free size).findSome? fun j =>
      (exhaustive (fill free j size) rest).map (j :: ·)

/-- A region for each group, given the room of the regions and the sizes of the groups. -/
def pack (free sizes : List Nat) : Option (List Nat) :=
  bestFit free sizes <|> exhaustive free sizes

end QuantumCompiler.Packing
