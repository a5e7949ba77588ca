import QuantumCompiler.Numeric.RealArith

/-!
# Validation of records

A record is checked field by field.  Each field has rules in a fixed order, and the first rule
that fails gives one violation; all violations together are the answer.
-/

namespace QuantumCompiler

/-- A rule that a field of a record breaks. -/
structure Violation where
  /-- Where the field is, from the type of the record on. -/
  path : String
  /-- Name of the field, with its index if it is in a list. -/
  field : String
  /-- Name of the rule. -/
  rule : String
  deriving Repr, DecidableEq

namespace Violation

/-- One line on a violation. -/
def message (v : Violation) : String :=
  s!"Key: '{v.path}' Error:Field validation for '{v.field}' failed on the '{v.rule}' tag"

/-- The lines on several violations. -/
def messages (vs : List Violation) : String := "\n".intercalate (vs.map message)

/-- The first rule that does not hold of a field of a record. -/
def check (record field : String) (rules : List (String × Bool)) : List Violation :=
  match rules.find? (!·.2) with
  | some (rule, _) => [⟨record ++ "." ++ field, field, rule⟩]
  | none => []

variable {α : Type} [RealArith α]

/-- The rule that a number is at least zero. -/
def nonnegative (x : α) : String × Bool := ("gte", RealArith.le RealArith.zero x)

/-- The rule that a number is above zero. -/
def positive (x : α) : String × Bool := ("gt", RealArith.lt RealArith.zero x)

/-- The rule that a number is at most one. -/
def atMostOne (x : α) : String × Bool := ("lte", RealArith.le x RealArith.one)

/-- The rule that a number is below one. -/
def belowOne (x : α) : String × Bool := ("lt", RealArith.lt x RealArith.one)

end Violation

end QuantumCompiler
