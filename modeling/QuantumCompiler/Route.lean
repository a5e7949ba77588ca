import QuantumCompiler.Device.Basic
import QuantumCompiler.Circuit.Basic
import QuantumCompiler.Layout.Basic

/-!
# Routing

A circuit over logical qubits becomes one over the physical qubits of a device.  Operations keep
their order.  Before an operation on two qubits that are not coupled, swaps move the first qubit
along a shortest path until it is next to the second one.  If the two then rest in different
zones, a shuttle takes the second one to the zone of the first, and another takes it back
afterwards.

`Route.block` is what one operation becomes under a layout; a routed circuit is the sequence of
its blocks.
-/

namespace QuantumCompiler

/-- Why a circuit cannot be routed. -/
inductive RouteCause where
  /-- The layout has the wrong sizes. -/
  | mismatch (logical physical circuit device : Nat)
  /-- Some logical qubits have no place. -/
  | incomplete (layout : String)
  /-- An operation acts on more than two qubits. -/
  | tooWide (kind : String) (arity : Nat)
  /-- The two qubits of an operation are not connected. -/
  | disconnected
  deriving Repr, DecidableEq

/-- The wording of a cause. -/
def RouteCause.message : RouteCause → String
  | mismatch logical physical circuit device =>
    s!"layout of {logical} onto {physical} qubits does not fit " ++
      s!"circuit of {circuit} qubits on {device}"
  | incomplete layout => s!"incomplete layout {layout}"
  | tooWide kind arity => s!"{kind} acts on {arity} qubits"
  | disconnected => "qubits lie in disconnected regions of the device"

/-- A circuit that cannot be routed. -/
inductive RouteError where
  /-- The layout does not serve. -/
  | layout (cause : RouteCause)
  /-- An operation, on the given physical qubits, cannot be routed. -/
  | operation (index : Nat) (physical : List Nat) (cause : RouteCause)
  /-- The routed operations make no circuit. -/
  | malformed (fault : Fault)
  deriving Repr, DecidableEq

namespace RouteError

/-- The wording of a failed routing. -/
def message : RouteError → String
  | layout cause => s!"routing error (operation -1 on physical qubits []): {cause.message}"
  | operation index physical cause =>
    s!"routing error (operation {index} on physical qubits {Text.listing physical}): " ++
      cause.message
  | malformed f => f.message

end RouteError

namespace Route

variable {α β : Type}

/-- A move of a qubit to another zone for the time of an operation. -/
structure Excursion where
  /-- The qubit that moves. -/
  qubit : Nat
  /-- The zone where it rests. -/
  home : Nat
  /-- The zone of the operation. -/
  away : Nat
  deriving Repr, DecidableEq

/-- What an operation becomes on the device. -/
structure Block (α : Type) where
  /-- Swaps in front of it. -/
  swaps : List (Nat × Nat)
  /-- The operation on physical qubits. -/
  op : Operation α
  /-- The move of its second qubit, if it crosses zones. -/
  excursion : Option Excursion

/-- The operations of a block in order. -/
def Block.ops [NatCast α] (b : Block α) : List (Operation α) :=
  let swaps := b.swaps.map fun (p, q) => Operation.swap p q
  match b.excursion with
  | none => swaps ++ [b.op]
  | some e => swaps ++ [.shuttle e.qubit e.home e.away, b.op, .shuttle e.qubit e.away e.home]

/-- The swaps that move a qubit along a path until it is next to the last qubit. -/
def swapsAlong : List Nat → List (Nat × Nat)
  | p :: q :: r :: rest => (p, q) :: swapsAlong (q :: r :: rest)
  | _ => []

/-- The layout after swaps. -/
def applySwaps (l : Layout) (swaps : List (Nat × Nat)) : Layout :=
  swaps.foldl (fun l (p, q) => l.exchange p q) l

/-- The physical qubits of an operation. -/
def physicalQubits (l : Layout) (op : Operation α) : List Nat :=
  op.qubits.map fun q => (l.physical? q).getD 0

/-- The move that an operation on physical qubits needs: it acts on two qubits that rest in
different zones. -/
def excursion? (d : Device β) (op : Operation α) : Option Excursion :=
  match op.isBarrier, op.qubits with
  | false, [p, q] =>
    if 1 < d.zones && d.zoneOf p != d.zoneOf q then some ⟨q, d.zoneOf q, d.zoneOf p⟩ else none
  | _, _ => none

/-- The swaps in front of an operation on physical qubits. -/
def swapsFor (d : Device β) (op : Operation α) : Except RouteCause (List (Nat × Nat)) :=
  if op.isBarrier then .ok []
  else
    match op.qubits with
    | [] | [_] => .ok []
    | [p, q] =>
      match d.coupling.shortestPath? p q with
      | some path => .ok (swapsAlong path)
      | none => .error .disconnected
    | qs => .error (.tooWide op.kind.name qs.length)

/-- The physical qubits of an operation after the swaps in front of it: the first one is now
where the last swap ends, and the others are where they were. -/
def approach (swaps : List (Nat × Nat)) : List Nat → List Nat
  | [] => []
  | p :: rest => (swaps.getLast?.map (·.2)).getD p :: rest

/-- What an operation becomes under a layout, with the layout after it.  Its physical qubits are
read before the swaps. -/
def block (d : Device β) (l : Layout) (op : Operation α) : Except RouteCause (Block α × Layout) :=
  let physical := physicalQubits l op
  match swapsFor d (op.withQubits physical) with
  | .error cause => .error cause
  | .ok swaps =>
    let placed := op.withQubits (approach swaps physical)
    .ok (⟨swaps, placed, excursion? d placed⟩, applySwaps l swaps)

/-- What the operations of a list become, whose indices start at a given number, with the layout
after them. -/
def blocks (d : Device β) :
    Nat → Layout → List (Operation α) → Except RouteError (List (Block α) × Layout)
  | _, l, [] => .ok ([], l)
  | i, l, op :: rest =>
    match block d l op with
    | .error cause => .error (.operation i (physicalQubits l op) cause)
    | .ok (b, l) =>
      match blocks d (i + 1) l rest with
      | .error e => .error e
      | .ok (bs, l) => .ok (b :: bs, l)

/-- A circuit on a device. -/
structure Result (α : Type) where
  /-- The circuit over physical qubits. -/
  circuit : Circuit α
  /-- The layout after all swaps. -/
  layout : Layout
  /-- Number of swaps put in. -/
  swaps : Nat
  /-- Number of shuttles put in. -/
  shuttles : Nat

/-- Number of swaps in blocks. -/
def swapCount (bs : List (Block α)) : Nat := (bs.flatMap (·.swaps)).length

/-- Number of shuttles in blocks: two for every excursion. -/
def shuttleCount (bs : List (Block α)) : Nat := 2 * bs.countP (·.excursion.isSome)

/-- Why a layout does not serve a circuit on a device. -/
def layoutCause? (c : Circuit α) (d : Device β) (l : Layout) : Option RouteCause :=
  if l.numLogical < c.numQubits || l.numPhysical != d.numQubits then
    some (.mismatch l.numLogical l.numPhysical c.numQubits d.numQubits)
  else if !l.isComplete then some (.incomplete l.text)
  else none

/-- Routes a circuit on a device from an initial layout. -/
def route [NatCast α] (c : Circuit α) (d : Device β) (initial : Layout) :
    Except RouteError (Result α) :=
  match layoutCause? c d initial with
  | some cause => .error (.layout cause)
  | none =>
    match blocks d 0 initial.clone c.ops with
    | .error e => .error e
    | .ok (bs, final) =>
      match Circuit.ofOperations d.numQubits c.numClbits (bs.flatMap Block.ops) with
      | .error (_, f) => .error (.malformed f)
      | .ok circuit => .ok ⟨circuit, final, swapCount bs, shuttleCount bs⟩

end Route

end QuantumCompiler
