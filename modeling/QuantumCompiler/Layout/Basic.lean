import QuantumCompiler.Text.Listing

/-!
# Layouts

A layout places logical qubits on physical ones.  It keeps both directions: the physical qubit
of each logical qubit, and the logical qubit that each physical qubit hosts.  Physical qubits
that host none are free.  A frozen layout refuses every change.

`Layout.assign` and `Layout.swap` check what they do; `Layout.place` and `Layout.exchange` are
the changes themselves.
-/

namespace QuantumCompiler

/-- A placement of logical qubits on physical ones, in both directions. -/
structure Layout where
  /-- The physical qubit of each logical qubit. -/
  l2p : Array (Option Nat)
  /-- The logical qubit on each physical qubit. -/
  p2l : Array (Option Nat)
  /-- Whether changes are refused. -/
  frozen : Bool := false
  deriving Repr, DecidableEq

namespace Layout

/-- Why a layout is not built or not changed. -/
inductive Fault where
  /-- A layout has more logical qubits than physical ones. -/
  | oversized (logical physical : Nat)
  /-- A list of places is longer than the number of physical qubits. -/
  | unplaceable (logical physical : Nat)
  /-- There is no such logical qubit. -/
  | logicalOutOfBounds (logical : Nat)
  /-- There is no such physical qubit. -/
  | physicalOutOfBounds (physical : Nat)
  /-- A logical qubit has a place already. -/
  | alreadyAssigned (logical physical : Nat)
  /-- A physical qubit is not free. -/
  | alreadyHosts (physical logical : Nat)
  /-- A swap names a physical qubit that does not exist. -/
  | swapOutOfBounds
  /-- The layout is frozen. -/
  | frozen
  deriving Repr, DecidableEq

/-- The wording of a fault. -/
def Fault.message : Fault → String
  | oversized logical physical =>
    s!"layout of {logical} logical qubits onto {physical} physical qubits"
  | unplaceable logical physical =>
    s!"cannot place {logical} logical qubits onto {physical} physical qubits"
  | logicalOutOfBounds l => s!"logical qubit {l} out of bounds"
  | physicalOutOfBounds p => s!"physical qubit {p} out of bounds"
  | alreadyAssigned l p => s!"logical qubit {l} already assigned to physical qubit {p}"
  | alreadyHosts p l => s!"physical qubit {p} already hosts logical qubit {l}"
  | swapOutOfBounds => "swap of a physical qubit out of bounds"
  | frozen => "attempt to modify frozen layout"

/-- Number of logical qubits. -/
def numLogical (l : Layout) : Nat := l.l2p.size

/-- Number of physical qubits. -/
def numPhysical (l : Layout) : Nat := l.p2l.size

/-- The physical qubit of a logical one. -/
def physical? (l : Layout) (logical : Nat) : Option Nat := l.l2p.getD logical none

/-- The logical qubit on a physical one. -/
def logical? (l : Layout) (physical : Nat) : Option Nat := l.p2l.getD physical none

/-- Whether every logical qubit has a place. -/
def isComplete (l : Layout) : Bool := l.l2p.all Option.isSome

/-- The physical qubits of the logical ones in order. -/
def physicals (l : Layout) : List (Option Nat) := l.l2p.toList

/-! ## Changes -/

/-- Puts a logical qubit on a physical one. -/
def place (l : Layout) (logical physical : Nat) : Layout :=
  { l with
    l2p := l.l2p.setIfInBounds logical (some physical)
    p2l := l.p2l.setIfInBounds physical (some logical) }

/-- Sets the place of the logical qubit on a physical one, if there is such a qubit. -/
def relocate (l2p : Array (Option Nat)) (logical : Option Nat) (physical : Nat) :
    Array (Option Nat) :=
  match logical with
  | some l => l2p.setIfInBounds l (some physical)
  | none => l2p

/-- Exchanges what two physical qubits host.  Either of them may be free. -/
def exchange (l : Layout) (p q : Nat) : Layout :=
  let onP := l.logical? p
  let onQ := l.logical? q
  { l with
    p2l := (l.p2l.setIfInBounds p onQ).setIfInBounds q onP
    l2p := relocate (relocate l.l2p onP q) onQ p }

/-- Places a logical qubit on a physical one; both must be free. -/
def assign (l : Layout) (logical physical : Nat) : Except Fault Layout :=
  if l.frozen then .error .frozen
  else if l.numLogical ≤ logical then .error (.logicalOutOfBounds logical)
  else if l.numPhysical ≤ physical then .error (.physicalOutOfBounds physical)
  else
    match l.physical? logical, l.logical? physical with
    | some p, _ => .error (.alreadyAssigned logical p)
    | none, some k => .error (.alreadyHosts physical k)
    | none, none => .ok (l.place logical physical)

/-- Exchanges what two physical qubits host. -/
def swap (l : Layout) (p q : Nat) : Except Fault Layout :=
  if l.frozen then .error .frozen
  else if l.numPhysical ≤ p || l.numPhysical ≤ q then .error .swapOutOfBounds
  else .ok (l.exchange p q)

/-- The layout with changes refused. -/
def freeze (l : Layout) : Layout := { l with frozen := true }

/-- A copy of the layout that can be changed. -/
def clone (l : Layout) : Layout := { l with frozen := false }

/-! ## Layouts to start from -/

/-- No logical qubit has a place. -/
def empty (logical physical : Nat) : Layout :=
  ⟨Array.replicate logical none, Array.replicate physical none, false⟩

/-- Every logical qubit is on the physical qubit of the same number. -/
def identity (logical physical : Nat) : Layout :=
  (List.range logical).foldl (fun l q => l.place q q) (empty logical physical)

/-- The empty layout, if there are enough physical qubits. -/
def new (logical physical : Nat) : Except Fault Layout :=
  if physical < logical then .error (.oversized logical physical)
  else .ok (empty logical physical)

/-- The identity layout, if there are enough physical qubits. -/
def trivial (logical physical : Nat) : Except Fault Layout :=
  if physical < logical then .error (.oversized logical physical)
  else .ok (identity logical physical)

/-- Assigns physical qubits to logical ones in order, from a given one on.  A logical qubit
without an entry is left out. -/
def assignAll (l : Layout) : Nat → List (Option Nat) → Except Fault Layout
  | _, [] => .ok l
  | logical, none :: rest => l.assignAll (logical + 1) rest
  | logical, some p :: rest =>
    match l.assign logical p with
    | .ok l => l.assignAll (logical + 1) rest
    | .error e => .error e

/-- The layout with given physical qubits for the logical ones. -/
def ofPhysicals (places : List Nat) (physical : Nat) : Except Fault Layout :=
  if physical < places.length then .error (.unplaceable places.length physical)
  else (empty places.length physical).assignAll 0 (places.map some)

/-! ## Text -/

/-- The number that stands for no qubit in texts. -/
def unassigned : Nat := Nat.pow 2 64 - 1

/-- Text of a layout: the physical qubits of the logical ones in order. -/
def text (l : Layout) : String := Text.listing (l.physicals.map (·.getD unassigned))

end Layout

end QuantumCompiler
