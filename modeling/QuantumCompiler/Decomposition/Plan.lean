import QuantumCompiler.Decomposition.Rule
import QuantumCompiler.Device.GateSet

/-!
# Choice of rules

For a set of native kinds, a plan chooses one rule for every kind that can be decomposed into
native ones, such that the number of native operations is smallest.  Kinds are settled one after
the other: always the cheapest one whose rule uses native and settled kinds only.  A rule never
costs less than one of its steps, so a settled kind stays settled, and the rule of a kind only
uses kinds settled before.  The choices are kept latest first, so the expansion of a kind goes
on in the rest of the list.
-/

namespace QuantumCompiler.Decomposition

/-- The rule chosen for a kind. -/
structure Choice where
  /-- The rule. -/
  rule : Rule
  /-- Number of native operations that the kind expands to. -/
  cost : Nat
  deriving Repr, DecidableEq

/-- Chosen rules for a set of native kinds. -/
structure Plan where
  /-- The native kinds. -/
  natives : GateSet
  /-- Chosen rules, latest first. -/
  choices : List Choice

namespace Plan

/-- The plan before anything is settled. -/
def start (natives : GateSet) : Plan := ⟨natives, []⟩

/-- The choice for a kind. -/
def choice? (plan : Plan) (kind : Kind) : Option Choice :=
  plan.choices.find? fun c => kind == .gate c.rule.gate

/-- The number of native operations that a kind expands to, if it is native or settled. -/
def cost? (plan : Plan) (kind : Kind) : Option Nat :=
  if plan.natives.kinds.contains kind then some 1 else (plan.choice? kind).map (·.cost)

/-- Whether operations of a kind can be expressed by native ones. -/
def covers (plan : Plan) (kind : Kind) : Bool :=
  (plan.cost? kind).isSome || plan.natives.contains kind

/-- The cost of a list of steps, if the kinds of all of them are settled. -/
def stepsCost? (plan : Plan) : List Step → Option Nat
  | [] => some 0
  | step :: rest =>
    match plan.cost? (.gate step.gate), plan.stepsCost? rest with
    | some c, some total => some (c + total)
    | _, _ => none

/-- The cost of a rule, if its kind is still open and its steps are settled. -/
def openCost? (plan : Plan) (rule : Rule) : Option Nat :=
  if plan.covers (.gate rule.gate) then none else plan.stepsCost? rule.steps

/-- The cheaper of two choices; the first one if they cost the same. -/
def cheaper (a b : Choice) : Choice := if b.cost < a.cost then b else a

/-- The cheapest choice for an open kind, the first one among equally cheap ones. -/
def best? (plan : Plan) : List Rule → Option Choice
  | [] => none
  | rule :: rest =>
    match plan.openCost? rule, plan.best? rest with
    | some cost, some later => some (cheaper ⟨rule, cost⟩ later)
    | some cost, none => some ⟨rule, cost⟩
    | none, later => later

/-- Settles kinds until none is left that can be, at most a given number of them. -/
def settle : Nat → Plan → Plan
  | 0, plan => plan
  | fuel + 1, plan =>
    match plan.best? rules with
    | none => plan
    | some choice => settle fuel { plan with choices := choice :: plan.choices }

/-- The plan for a set of native kinds.  Every round settles another gate. -/
def ofNatives (natives : GateSet) : Plan := settle Gate.all.length (start natives)

end Plan

end QuantumCompiler.Decomposition
