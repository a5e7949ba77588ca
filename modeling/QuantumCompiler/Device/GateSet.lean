import QuantumCompiler.Circuit.Kind

/-!
# Native kinds

The set of kinds that a device executes by itself, sorted by name.  A barrier only orders
operations and is always allowed.
-/

namespace QuantumCompiler

/-- A set of native kinds. -/
structure GateSet where
  /-- The kinds in ascending order of their names. -/
  kinds : List Kind
  deriving DecidableEq

namespace GateSet

/-- Ascending order of names. -/
def byName (a b : Kind) : Bool := decide (a.name ≤ b.name)

/-- The set of given kinds. -/
def ofKinds (kinds : List Kind) : GateSet := ⟨kinds.eraseDups.mergeSort byName⟩

/-- The set of kinds with given names. -/
def ofNames (names : List String) : GateSet := ofKinds (names.map Kind.ofName)

/-- Whether a kind is executed without decomposition. -/
def contains (s : GateSet) (kind : Kind) : Bool := kind == .gate .barrier || s.kinds.contains kind

/-- The names in ascending order. -/
def names (s : GateSet) : List String := s.kinds.map Kind.name

/-- Text of a set. -/
def text (s : GateSet) : String := "\x7b" ++ ",".intercalate s.names ++ "\x7d"

end GateSet

end QuantumCompiler
