/-!
# Kinds of operations

`Gate` lists the standard kinds with their shapes: how many qubits, classical bits and parameters
an operation of that kind has, and whether it is unitary.  A `Kind` is a standard kind or a custom
name, and a custom name is never that of a standard kind, so `Kind.ofName` and `Kind.name` are
inverse to each other (`Kind.ofName_name`, `Kind.name_ofName`).
-/

namespace QuantumCompiler

/-- The standard kinds of operations: unitary gates, and the four that are not unitary. -/
inductive Gate where
  | id | x | y | z | h | s | sdg | t | tdg | sx | sxdg
  | rx | ry | rz | p | u | prx
  | cx | cy | cz | swap | cp | crz | rzz
  | ccx | cswap
  | measure | reset | barrier | shuttle
  deriving Repr, DecidableEq

namespace Gate

/-- All standard kinds. -/
def all : List Gate :=
  [id, x, y, z, h, s, sdg, t, tdg, sx, sxdg, rx, ry, rz, p, u, prx, cx, cy, cz, swap, cp, crz,
    rzz, ccx, cswap, measure, reset, barrier, shuttle]

/-- Name of a standard kind in texts. -/
def name : Gate → String
  | id => "id"
  | x => "x"
  | y => "y"
  | z => "z"
  | h => "h"
  | s => "s"
  | sdg => "sdg"
  | t => "t"
  | tdg => "tdg"
  | sx => "sx"
  | sxdg => "sxdg"
  | rx => "rx"
  | ry => "ry"
  | rz => "rz"
  | p => "p"
  | u => "u"
  | prx => "prx"
  | cx => "cx"
  | cy => "cy"
  | cz => "cz"
  | swap => "swap"
  | cp => "cp"
  | crz => "crz"
  | rzz => "rzz"
  | ccx => "ccx"
  | cswap => "cswap"
  | measure => "measure"
  | reset => "reset"
  | barrier => "barrier"
  | shuttle => "shuttle"

/-- The standard kind of a name. -/
def ofName? : String → Option Gate
  | "id" => some id
  | "x" => some x
  | "y" => some y
  | "z" => some z
  | "h" => some h
  | "s" => some s
  | "sdg" => some sdg
  | "t" => some t
  | "tdg" => some tdg
  | "sx" => some sx
  | "sxdg" => some sxdg
  | "rx" => some rx
  | "ry" => some ry
  | "rz" => some rz
  | "p" => some p
  | "u" => some u
  | "prx" => some prx
  | "cx" => some cx
  | "cy" => some cy
  | "cz" => some cz
  | "swap" => some swap
  | "cp" => some cp
  | "crz" => some crz
  | "rzz" => some rzz
  | "ccx" => some ccx
  | "cswap" => some cswap
  | "measure" => some measure
  | "reset" => some reset
  | "barrier" => some barrier
  | "shuttle" => some shuttle
  | _ => none

theorem ofName?_name (g : Gate) : ofName? g.name = some g := by
  cases g <;> rfl

theorem name_of_ofName? {n : String} {g : Gate} (h : ofName? n = some g) : g.name = n := by
  unfold ofName? at h
  split at h <;> first | (cases h; rfl) | cases h

theorem mem_all (g : Gate) : g ∈ all := by
  cases g <;> decide

/-- Number of qubits an operation of this kind acts on.  A barrier acts on any number of qubits
and has zero here. -/
def numQubits : Gate → Nat
  | barrier => 0
  | cx | cy | cz | swap | cp | crz | rzz => 2
  | ccx | cswap => 3
  | _ => 1

/-- Number of classical bits an operation of this kind writes. -/
def numClbits : Gate → Nat
  | measure => 1
  | _ => 0

/-- Number of parameters an operation of this kind takes. -/
def numParams : Gate → Nat
  | rx | ry | rz | p | cp | crz | rzz => 1
  | prx | shuttle => 2
  | u => 3
  | _ => 0

/-- Whether operations of this kind are unitary gates. -/
def isUnitary : Gate → Bool
  | measure | reset | barrier | shuttle => false
  | _ => true

/-- Names of all standard kinds in ascending order. -/
def sortedNames : List String := (all.map name).mergeSort fun a b => decide (a ≤ b)

end Gate

/-- The kind of an operation. -/
inductive Kind where
  /-- A standard kind. -/
  | gate (g : Gate)
  /-- A kind known by its name only. -/
  | custom (name : String) (novel : Gate.ofName? name = none)
  deriving DecidableEq

namespace Kind

/-- The kind with a given name. -/
def ofName (name : String) : Kind :=
  match h : Gate.ofName? name with
  | some g => gate g
  | none => custom name h

/-- Name of a kind in texts. -/
def name : Kind → String
  | gate g => g.name
  | custom name _ => name

/-- The standard kind, if it is one. -/
def gate? : Kind → Option Gate
  | gate g => some g
  | custom .. => none

instance : Inhabited Kind := ⟨gate .id⟩

theorem ofName_name (k : Kind) : ofName k.name = k := by
  cases k with
  | gate g =>
    have known : Gate.ofName? (gate g).name = some g := Gate.ofName?_name g
    rw [ofName]
    split
    · next h => rw [known] at h; cases h; rfl
    · next h => rw [known] at h; cases h
  | custom n novel =>
    rw [ofName]
    split
    · next h => rw [show (custom n novel).name = n from rfl, novel] at h; cases h
    · rfl

theorem name_ofName (n : String) : (ofName n).name = n := by
  rw [ofName]
  split
  · next h => exact Gate.name_of_ofName? h
  · rfl

end Kind

end QuantumCompiler
