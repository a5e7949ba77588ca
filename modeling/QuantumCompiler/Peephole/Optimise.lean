import QuantumCompiler.Peephole.Sweep

/-!
# Optimisation

Passes are repeated until one of them changes nothing or their number reaches a bound.  There
are four usual levels of optimisation.
-/

namespace QuantumCompiler.Peephole

/-- How much is optimised. -/
structure Config where
  /-- Number of passes, at most. -/
  maxPasses : Nat
  /-- The simplifications that are switched on. -/
  enabled : Simplifications
  deriving Repr, DecidableEq

namespace Config

/-- The usual levels: nothing, adjacent gates, gates past commuting ones, and fusion of gates on
one qubit. -/
def levels : List Config :=
  [ { maxPasses := 0, enabled := {} },
    { maxPasses := 8, enabled := { cancel := true, merge := true, identities := true } },
    { maxPasses := 32,
      enabled := { cancel := true, merge := true, identities := true, commute := true } },
    { maxPasses := 128
      enabled :=
        { cancel := true, merge := true, identities := true, commute := true, fuse := true } } ]

/-- The usual level with a given number. -/
def level? (n : Nat) : Option Config := levels[n]?

/-- The number of the level that is taken if none is asked for. -/
def defaultLevel : Nat := 1

end Config

instance : Inhabited Config :=
  ⟨{ maxPasses := 8, enabled := { cancel := true, merge := true, identities := true } }⟩

variable {α : Type} [RealArith α]

/-- One pass over a circuit, with the number of simplifications it made. -/
def pass (r : Simplifications) (c : Circuit α) : Circuit α × Nat :=
  let s := (Sweep.start c.numQubits).run r c.ops
  ({ c with ops := s.ops }, s.fired)

/-- Passes until nothing changes, at most a given number of them.  The result comes with the
number of passes made. -/
def repeatPass (r : Simplifications) : Nat → Circuit α → Circuit α × Nat
  | 0, c => (c, 0)
  | bound + 1, c =>
    let (next, fired) := pass r c
    if fired == 0 then (next, 1)
    else
      let (result, passes) := repeatPass r bound next
      (result, passes + 1)

/-- Optimises a circuit over given native kinds, and counts the passes. -/
def optimise (natives : GateSet) (config : Config) (c : Circuit α) : Circuit α × Nat :=
  repeatPass (config.enabled.within natives) config.maxPasses c

end QuantumCompiler.Peephole
